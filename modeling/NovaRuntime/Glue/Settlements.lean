import NovaRuntime.Glue.Runtime

/-!
# The promise of a dispatch over both sides

The async function of a dispatch settles in the guest; a reaction is queued, runs as a job, and
tells the host.  `SettleView` is what the two sides hold of this, `Moves` all that a step of the
runtime does to it.

* `reactions`   the reactions that are queued or waiting for guest code;
* `live`        no drain of the dispatch in flight has failed, and its outcome was not taken;
* `step_settles`   every step of a runtime is a move of its view.
-/

namespace NovaRuntime
open Lib

/-- the reaction a job is -/
def Work.reaction? {S : Type} : Work S → Option (Int × Kind × S)
  | .reaction n kind s => some (n, kind, s)
  | .other => none

def Frame.reaction? {S : Type} : Frame S → Option (Int × Kind × S)
  | .reaction n kind s => some (n, kind, s)
  | .schedule _ _ | .call _ _ _ => none

/-- the drain of the dispatch in flight has not failed, and its outcome was not taken -/
def Pc.live {J : Type} : Pc J → Bool
  | .idle | .dead | .ended (.error _) => false
  | _ => true

/-- whether a response of dispatch `n` is taken for one of dispatch `m` -/
def answers (n m : Int) : Bool := decide ((roundF64 n).intoI64 = m)

structure SettleView (S : Type) where
  dispatches : Int
  kind : Kind
  outcome : Option Text
  live : Bool
  running : List (Int × Kind)
  reactions : List (Int × Kind × S)
  log : List (SettleNote S)

namespace SettleView
variable {S : Type}

/-- what a step can do to the promises of dispatches -/
inductive Moves (wire : Kind → S → Option Text) (v : SettleView S) : SettleView S → Prop
  | idle (reactions) (hp : reactions.Perm v.reactions) :
      Moves wire v { v with reactions := reactions }
  | dispatch (kind) : Moves wire v { v with
      dispatches := v.dispatches + 1
      kind := kind
      outcome := none
      live := true
      running := (v.dispatches + 1, kind) :: v.running }
  | finish (n kind s reactions) (hn : (n, kind) ∈ v.running)
      (hp : reactions.Perm ((n, kind, s) :: v.reactions)) :
      Moves wire v { v with
        running := v.running.erase (n, kind)
        reactions := reactions
        log := .finished n s :: v.log }
  | silent (n kind s reactions) (hp : ((n, kind, s) :: reactions).Perm v.reactions)
      (hs : wire kind s = none) :
      Moves wire v { v with reactions := reactions, log := .silent n :: v.log }
  | respond (n kind s payload reactions) (hp : ((n, kind, s) :: reactions).Perm v.reactions)
      (hs : wire kind s = some payload) :
      Moves wire v { v with
        outcome := if answers n v.dispatches then some (decodeLossy payload) else v.outcome
        reactions := reactions
        log := .responded n payload :: v.log }
  | drained : Moves wire v { v with log := .drained (.ok ()) :: v.log }
  | ends (outcome reactions log) (hr : reactions ⊆ v.reactions)
      (hlog : log = v.log ∨ ∃ r, log = .drained r :: v.log) :
      Moves wire v { v with
        outcome := outcome, live := false, reactions := reactions, log := log }

end SettleView

namespace Runtime
variable {S : Type} {crates : Crates} {wire : Kind → S → Option Text} {f f' : Runtime S}

def reactions (f : Runtime S) : List (Int × Kind × S) :=
  f.glue.frames.filterMap Frame.reaction? ++ f.worker.jobs.filterMap fun job => job.work.reaction?

def settleView (f : Runtime S) : SettleView S where
  dispatches := f.worker.dispatches
  kind := f.worker.kind
  outcome := f.worker.slots.outcome
  live := f.worker.pc.live
  running := f.glue.running
  reactions := f.reactions
  log := f.glue.settleLog

theorem settles_idle (heq : f'.settleView = f.settleView) :
    SettleView.Moves wire f.settleView f'.settleView :=
  heq ▸ .idle _ (List.Perm.refl _)

theorem settles_perm (hp : f'.reactions.Perm f.reactions)
    (heq : f'.settleView = { f.settleView with reactions := f'.reactions }) :
    SettleView.Moves wire f.settleView f'.settleView :=
  heq ▸ .idle _ hp

theorem host_settles {a : Act (Work S)} {w : Worker (Work S)}
    (hmay : f.hostMay a = true) (hw : Worker.step crates f.worker a = some w) :
    SettleView.Moves wire f.settleView (Runtime.settleView ⟨w, f.glue.follow crates f.worker w a⟩) := by
  cases Worker.step_cases hw with
  | tick d => exact settles_idle rfl
  | enqueue | respondOther | respondMatch | respondPayload | respondThrows | timerStart
  | timerClear | binding => cases hmay
  | drain _ _ hpc | jobOver _ _ _ hpc | callbackOver _ _ hpc | noJobs _ _ hpc | noBindings _ hpc
  | ready _ _ _ _ _ hpc | await _ _ _ hpc | answered _ _ _ hpc | sleep _ _ _ _ hpc
  | fireLate _ _ _ _ hpc | wake _ hpc | refuse _ _ hpc | abort hpc =>
    refine settles_idle ?_
    simp [settleView, reactions, Glue.follow, Glue.enter, Pc.live, hpc]
  | startupThrew message hpc | dispatcherThrew message hpc | buildFailed reason hpc | built hpc
  | failed reason hpc | took hpc =>
    exact .ends _ _ _ (List.Subset.refl _) (.inl rfl)
  | runJob left job jobs hpc hj =>
    cases hw : job.work with
    | other =>
      refine settles_idle ?_
      simp [settleView, reactions, Glue.follow, Glue.enter, Pc.live, Work.reaction?, hw, hj, hpc]
    | reaction n kind s =>
      refine settles_perm ?_ ?_
      · have hmid : ((n, kind, s) :: (f.glue.frames.filterMap Frame.reaction? ++
            jobs.filterMap fun job => job.work.reaction?)).Perm _ := List.perm_middle.symm
        simpa [reactions, Glue.follow, Glue.enter, hw, hj, Work.reaction?, Frame.reaction?,
          List.filterMap_cons] using hmid
      · simp [settleView, Glue.follow, Glue.enter, Pc.live, hpc]
  | putBack left job jobs hpc hj =>
    refine settles_perm ?_ ?_
    · have hend : (jobs ++ [job]).Perm (job :: jobs) := List.perm_append_singleton job jobs
      simp only [reactions, Glue.follow, Glue.enter, hj]
      exact (hend.filterMap _).append_left _
    · simp [settleView, Glue.follow, Glue.enter, Pc.live, hpc]
  | jobCap finished hpc hj =>
    refine .ends _ _ _ ?_ (.inr ⟨.error .maxIterationsReached, rfl⟩)
    simp [settleView, reactions, Glue.follow, Glue.enter]
  | elapsed p deadline hpc =>
    have hmove : SettleView.Moves wire f.settleView _ := .ends f.settleView.outcome
      f.settleView.reactions _ (List.Subset.refl _) (.inr ⟨.error .wallClockTimeout, rfl⟩)
    simpa [settleView, reactions, Glue.follow, Glue.expire, Glue.enter, Pc.live, hpc] using hmove
  | overran pre t post next deadline hpc =>
    exact .ends _ _ _ (List.Subset.refl _) (.inr ⟨.error .wallClockTimeout, rfl⟩)
  | noTimers hpc ht =>
    have hmove : SettleView.Moves wire f.settleView _ := .drained
    simpa [settleView, reactions, Glue.follow, Glue.enter, Pc.live, hpc] using hmove
  | dispatch event kind hpc =>
    have hmove : SettleView.Moves wire f.settleView _ := .dispatch kind
    simpa [settleView, reactions, Glue.follow, Pc.live] using hmove

theorem respond_view {n : Int} {payload : Text} {w w' : Worker (Work S)}
    (hc : Worker.Coherent w) (hw : respond crates w n payload = some w') :
    w'.dispatches = w.dispatches ∧ w'.kind = w.kind ∧ w'.pc = w.pc ∧ w'.jobs = w.jobs ∧
      w'.slots.outcome =
        if answers n w.dispatches then some (decodeLossy payload) else w.slots.outcome := by
  obtain ⟨w₁, hid, hpay⟩ := Option.bind_eq_some_iff.mp hw
  have hmatch : w.slots.nativeRespondId (roundF64 n) = answers n w.dispatches := by
    rw [HostSlots.nativeRespondId, hc.slot, answers]
  rw [hmatch] at hpay
  cases Worker.step_cases hid with
  | respondOther _ c hpc hne =>
    rw [hc.slot] at hne
    have hno : answers n w.dispatches = false := decide_eq_false hne
    rw [hno] at hpay ⊢
    cases hpay
    exact ⟨rfl, rfl, rfl, rfl, rfl⟩
  | respondMatch _ c hpc heq =>
    rw [hc.slot] at heq
    have hyes : answers n w.dispatches = true := decide_eq_true heq
    rw [hyes, if_pos rfl] at hpay
    rw [hyes]
    cases Worker.step_cases hpay with
    | respondPayload _ _ _ _ _ _ => exact ⟨rfl, rfl, rfl, rfl, rfl⟩

theorem step_settles {a : GlueAct S} (hc : Worker.Coherent f.worker)
    (h : step crates wire f a = some f') :
    SettleView.Moves wire f.settleView f'.settleView := by
  cases step_cases h with
  | host a w hmay hw => exact host_settles hmay hw
  | enqueue w hw =>
    cases Worker.step_cases hw with
    | enqueue work c hpc =>
      refine settles_idle ?_
      simp [settleView, reactions, Work.reaction?]
  | schedule r | call kind name =>
    exact settles_idle rfl
  | scheduled handle r frames delay d w hfr hd hw =>
    cases Worker.step_cases hw with
    | timerStart _ _ _ d due c hpc =>
      refine settles_idle ?_
      simp [settleView, reactions, hfr, List.filterMap_cons, Frame.reaction?]
  | scheduleThrows handle r frames hfr | callThrows id kind name frames hfr =>
    refine settles_idle ?_
    simp [settleView, reactions, hfr, List.filterMap_cons, Frame.reaction?]
  | cancel id w hw =>
    cases Worker.step_cases hw with
    | timerClear _ c hpc => exact settles_idle rfl
  | called id kind name frames params w hfr hw =>
    cases Worker.step_cases hw with
    | binding _ _ _ _ _ c hpc =>
      refine settles_idle ?_
      simp [settleView, reactions, hfr, List.filterMap_cons, Frame.reaction?]
  | settles n kind s w hn hw =>
    cases Worker.step_cases hw with
    | enqueue work c hpc =>
      refine .finish n kind s _ hn ?_
      have hend := List.perm_append_singleton (n, kind, s) f.reactions
      simpa [settleView, reactions, Work.reaction?] using hend
  | silent n kind s frames hfr hs =>
    refine .silent n kind s _ ?_ hs
    simp [settleView, reactions, hfr, Frame.reaction?]
  | responded n kind s frames payload w hfr hs hw =>
    obtain ⟨hdisp, hkind, hpc, hjobs, hout⟩ := respond_view hc hw
    have heq : (Runtime.settleView ⟨w, { f.glue with
        frames := frames, settleLog := .responded n payload :: f.glue.settleLog }⟩ : SettleView S) =
        { f.settleView with
          outcome := if answers n f.worker.dispatches then some (decodeLossy payload)
            else f.worker.slots.outcome
          reactions := frames.filterMap Frame.reaction? ++
            f.worker.jobs.filterMap fun job => job.work.reaction?
          log := .responded n payload :: f.glue.settleLog } := by
      simp only [settleView, reactions, hdisp, hkind, hpc, hjobs, hout]
    rw [heq]
    refine .respond n kind s payload _ ?_ hs
    simp [settleView, reactions, hfr, Frame.reaction?]

theorem enter_settleLog (g : Glue S) (now : Nat) (pc : Pc (Work S)) :
    (g.enter crates now pc).settleLog = g.settleLog ∨
      ∃ r, (g.enter crates now pc).settleLog = .drained r :: g.settleLog := by
  cases pc with
  | eval c =>
    cases c with
    | job left work => cases work <;> exact .inl rfl
    | _ => exact .inl rfl
  | ended r => exact .inr ⟨r, rfl⟩
  | _ => exact .inl rfl

/-- only the end of a drain is logged by an act of the host -/
theorem follow_settleLog (g : Glue S) (w w' : Worker (Work S)) (a : Act (Work S)) :
    (g.follow crates w w' a).settleLog = g.settleLog ∨
      ∃ r, (g.follow crates w w' a).settleLog = .drained r :: g.settleLog := by
  cases a with
  | drainJobs | popBinding | answered | nextTimer | wake => exact enter_settleLog g w'.now w'.pc
  | elapsed =>
    have hlog : (g.expire w.pc).settleLog = g.settleLog := by cases w.pc <;> rfl
    rw [← hlog]
    exact enter_settleLog _ w'.now w'.pc
  | exec event =>
    refine .inl ?_
    rw [Glue.follow]
    split <;> rfl
  | tick | guest | evalOver | finish | abort => exact .inl rfl

/-- the promise of a dispatch settles by no other act -/
theorem settles_of_finished {a : GlueAct S} {n : Int} {s : S}
    (h : step crates wire f a = some f')
    (hlog : f'.glue.settleLog = .finished n s :: f.glue.settleLog) :
    ∃ n kind s, a = .settles n kind s := by
  cases step_cases h with
  | settles n kind s => exact ⟨n, kind, s, rfl⟩
  | host a w =>
    rcases follow_settleLog f.glue f.worker w a with heq | ⟨r, heq⟩
    · exact absurd (hlog.symm.trans heq) (List.cons_ne_self _ _)
    · cases hlog.symm.trans heq
  | enqueue | scheduled | schedule | scheduleThrows | cancel | call | called | callThrows =>
    exact absurd hlog.symm (List.cons_ne_self _ _)
  | silent | responded => cases hlog

end Runtime

end NovaRuntime
