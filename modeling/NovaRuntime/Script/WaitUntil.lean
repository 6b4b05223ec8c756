import NovaRuntime.Script.ExtendableEvent

/-!
# `waitUntil` holds the response back

* `Sound`         what a runtime and its events have in common, in every run;
* `WaitsForAll`   the acts that decide a wait only when nothing that is owed is pending;
* `Held`          what these keep;
* `waitUntil_is_awaited`   in a run of such acts, the response comes after all that is owed;
* `Orderly`       acts that are such acts: no promise rejects, and none comes late.
-/

namespace NovaRuntime
open Lib Promises

namespace Extended
variable {crates : Crates} {headersToWire : JsVal → Js (List (JsVal × JsVal))} {f f' : Extended}

/-! ## what holds in every run -/

/-- a move of the view that is not the end of an async function -/
theorem moves_unfinished {wire : Kind → Handled → Option Text} {v v' : SettleView Handled}
    (hm : SettleView.Moves wire v v') (hno : ∀ n s, v'.log ≠ .finished n s :: v.log) :
    v'.reactions ⊆ v.reactions ∧ v.running ⊆ v'.running ∧
      ∀ n payload, .responded n payload ∈ v'.log → .responded n payload ∈ v.log ∨
        ∃ kind s, (n, kind, s) ∈ v.reactions ∧ wire kind s = some payload := by
  cases hm with
  | idle reactions hp => exact ⟨hp.subset, List.Subset.refl _, fun n payload => .inl⟩
  | dispatch kind => exact ⟨List.Subset.refl _, List.subset_cons_self _ _, fun n payload => .inl⟩
  | finish n kind s reactions hn hp => exact absurd rfl (hno n s)
  | silent n kind s reactions hp hs =>
    refine ⟨fun r hr => hp.subset (List.mem_cons_of_mem _ hr), List.Subset.refl _, ?_⟩
    intro m payload hmem
    exact .inl ((List.mem_cons.mp hmem).resolve_left (by simp))
  | respond n kind s payload reactions hp hs =>
    refine ⟨fun r hr => hp.subset (List.mem_cons_of_mem _ hr), List.Subset.refl _, ?_⟩
    intro m payload' hmem
    rcases List.mem_cons.mp hmem with heq | hmem
    · cases heq
      exact .inr ⟨kind, s, hp.subset List.mem_cons_self, hs⟩
    · exact .inl hmem
  | drained =>
    refine ⟨List.Subset.refl _, List.Subset.refl _, fun m payload hmem => ?_⟩
    exact .inl ((List.mem_cons.mp hmem).resolve_left (by simp))
  | ends outcome reactions log hr hlog =>
    refine ⟨hr, List.Subset.refl _, fun m payload hmem => ?_⟩
    rcases hlog with rfl | ⟨r, rfl⟩
    · exact .inl hmem
    · exact .inl ((List.mem_cons.mp hmem).resolve_left (by simp))

/-- what an act of the runtime leaves of the promises of dispatches -/
theorem runtime_step {wire : Kind → Handled → Option Text} {r r' : Runtime Handled}
    {a : GlueAct Handled} (hc : Worker.Coherent r.worker) (ha : a.isSettles = false)
    (h : Runtime.step crates wire r a = some r') :
    r'.reactions ⊆ r.reactions ∧ r.glue.running ⊆ r'.glue.running ∧
      ∀ n payload, .responded n payload ∈ r'.glue.settleLog →
        .responded n payload ∈ r.glue.settleLog ∨
          ∃ kind s, (n, kind, s) ∈ r.reactions ∧ wire kind s = some payload := by
  refine moves_unfinished (Runtime.step_settles hc h) fun n s hlog => ?_
  obtain ⟨m, kind, s', rfl⟩ := Runtime.settles_of_finished h hlog
  cases ha

theorem runtime_settles {wire : Kind → Handled → Option Text} {r r' : Runtime Handled} {n : Int}
    {kind : Kind} {s : Handled} (h : Runtime.step crates wire r (.settles n kind s) = some r') :
    r'.reactions.Perm ((n, kind, s) :: r.reactions) ∧
      r'.glue.running = r.glue.running.erase (n, kind) ∧
      r'.glue.settleLog = .finished n s :: r.glue.settleLog := by
  cases Runtime.step_cases h with
  | settles _ _ _ w hn hw =>
    cases Worker.step_cases hw with
    | enqueue work c hpc =>
      refine ⟨?_, rfl, rfl⟩
      have hend := List.perm_append_singleton (n, kind, s) r.reactions
      simpa [Runtime.reactions, Work.reaction?] using hend

theorem change_self (f : Extended) (n : Int) (g : ExtendableEvent → ExtendableEvent) :
    (f.change n g).events n = g (f.events n) := Function.update_self ..

theorem change_other (f : Extended) {m n : Int} (g : ExtendableEvent → ExtendableEvent) (h : m ≠ n) :
    (f.change n g).events m = f.events m := Function.update_of_ne h ..

/-- what holds of the event that changed, and held of the others, holds of all -/
theorem forall_change {P : Int → ExtendableEvent → Prop} {n : Int}
    {g : ExtendableEvent → ExtendableEvent} (hn : P n (g (f.events n)))
    (hother : ∀ m, m ≠ n → P m (f.events m)) : ∀ m, P m ((f.change n g).events m) := by
  intro m
  by_cases hm : m = n
  · subst hm
    rw [change_self]
    exact hn
  · rw [change_other f g hm]
    exact hother m hm

/-- What the two sides of an event have in common. -/
structure Sound (headersToWire : JsVal → Js (List (JsVal × JsVal))) (f : Extended) : Prop where
  coherent : Worker.Coherent f.runtime.worker
  running : ∀ n kind handled ps, (f.events n).phase = .waiting kind handled ps →
    (n, kind) ∈ f.runtime.glue.running
  reactions : ∀ n kind handled, (n, kind, handled) ∈ f.runtime.reactions →
    (f.events n).phase = .ended kind handled
  responded : ∀ n payload, .responded n payload ∈ f.runtime.glue.settleLog →
    ∃ kind handled, (f.events n).phase = .ended kind handled ∧
      dispatchText headersToWire kind handled = some payload

namespace Sound

theorem change (h : Sound headersToWire f) {n : Int} {g : ExtendableEvent → ExtendableEvent}
    (hopen : ∀ kind handled, (f.events n).phase ≠ .ended kind handled)
    (hg : ∀ kind handled ps, (g (f.events n)).phase = .waiting kind handled ps →
      (n, kind) ∈ f.runtime.glue.running) : Sound headersToWire (f.change n g) := by
  have hkeep : ∀ {m kind handled}, (f.events m).phase = .ended kind handled →
      ((f.change n g).events m).phase = .ended kind handled := by
    intro m kind handled hended
    have hm : m ≠ n := by
      rintro rfl
      exact hopen kind handled hended
    rwa [change_other f g hm]
  exact {
    coherent := h.coherent
    running := forall_change (P := fun m e => ∀ kind handled ps,
      e.phase = .waiting kind handled ps → (m, kind) ∈ f.runtime.glue.running) hg
      fun m _ => h.running m
    reactions := fun m kind handled hr => hkeep (h.reactions m kind handled hr)
    responded := by
      intro m payload hr
      obtain ⟨kind, handled, hended, htext⟩ := h.responded m payload hr
      exact ⟨kind, handled, hkeep hended, htext⟩ }

theorem waitUntil (h : Sound headersToWire f) (n : Int) (p : Nat) :
    Sound headersToWire (f.change n fun e => e.waitUntil f.promises p) := by
  have hphase : ∀ m, ((f.change n fun e => e.waitUntil f.promises p).events m).phase =
      (f.events m).phase :=
    forall_change (P := fun m e => e.phase = (f.events m).phase) rfl fun m _ => rfl
  exact {
    coherent := h.coherent
    running := fun m kind handled ps hm => h.running m kind handled ps ((hphase m).symm.trans hm)
    reactions := fun m kind handled hm => (hphase m).trans (h.reactions m kind handled hm)
    responded := by
      intro m payload hm
      obtain ⟨kind, handled, hended, htext⟩ := h.responded m payload hm
      exact ⟨kind, handled, (hphase m).trans hended, htext⟩ }

theorem step {a : ExtendedAct} (h : Sound headersToWire f)
    (hs : step crates headersToWire f a = some f') : Sound headersToWire f' := by
  cases step_cases hs with
  | runtime a r ha hr =>
    obtain ⟨hreactions, hrunning, hlog⟩ := runtime_step h.coherent ha hr
    exact {
      coherent := Runtime.step_coherent h.coherent hr
      running := fun n kind handled ps hn => hrunning (h.running n kind handled ps hn)
      reactions := fun n kind handled hn => h.reactions n kind handled (hreactions hn)
      responded := by
        intro n payload hn
        rcases hlog n payload hn with hn | ⟨kind, handled, hreact, htext⟩
        · exact h.responded n payload hn
        · exact ⟨kind, handled, h.reactions n kind handled hreact, htext⟩ }
  | waitUntil n p => exact h.waitUntil n p
  | settle p fulfils => exact ⟨h.coherent, h.running, h.reactions, h.responded⟩
  | handlersEnd n kind handled hphase hn =>
    refine h.change (by rw [hphase]; simp) ?_
    intro kind' handled' ps hwait
    unfold ExtendableEvent.endHandlers at hwait
    split at hwait
    · cases hwait
      exact hn
    · cases hwait
  | resume n kind handled ps hphase hd =>
    refine h.change (by rw [hphase]; simp) ?_
    intro kind' handled' ps' hwait
    cases hwait
  | finish n kind handled r hphase hr =>
    obtain ⟨hreactions, hrunning, hlog⟩ := runtime_settles hr
    exact {
      coherent := Runtime.step_coherent h.coherent hr
      running := by
        intro m kind' handled' ps hm
        have hne : (m, kind') ≠ (n, kind) := by
          intro heq
          cases heq
          rw [hphase] at hm
          cases hm
        show (m, kind') ∈ r.glue.running
        rw [hrunning]
        exact (List.mem_erase_of_ne hne).mpr (h.running m kind' handled' ps hm)
      reactions := by
        intro m kind' handled' hm
        rcases List.mem_cons.mp (hreactions.subset hm) with heq | hm
        · cases heq
          exact hphase
        · exact h.reactions m kind' handled' hm
      responded := by
        intro m payload hm
        have hm : SettleNote.responded m payload ∈ r.glue.settleLog := hm
        rw [hlog] at hm
        exact h.responded m payload ((List.mem_cons.mp hm).resolve_left (by simp)) }

end Sound

/-! ## runs that wait for all -/

/-- A promise settles, or the handlers end, and no promise that is owed is pending then, if that
decides what an async function waits for or ends it without a wait. -/
def WaitsForAll (f : Extended) : ExtendedAct → Prop
  | .settle p fulfils => ∀ d ∈ f.runtime.glue.running,
      (f.events d.1).phase.Decided (settle f.promises p fulfils) →
        (f.events d.1).Paid (settle f.promises p fulfils)
  | .handlersEnd n kind handled =>
      ((f.events n).endHandlers kind handled).phase.Decided f.promises →
        (f.events n).Paid f.promises
  | .runtime _ | .waitUntil _ _ | .resume _ | .finish _ => True

instance (f : Extended) : (a : ExtendedAct) → Decidable (WaitsForAll f a)
  | .settle _ _ => inferInstanceAs (Decidable (∀ _ ∈ _, _))
  | .handlersEnd _ _ _ => inferInstanceAs (Decidable (_ → _))
  | .runtime _ | .waitUntil _ _ | .resume _ | .finish _ => inferInstanceAs (Decidable True)

/-- an async function that nothing holds back any more has nothing to wait for -/
def Held (f : Extended) : Prop :=
  ∀ n, (f.events n).phase.Decided f.promises → (f.events n).Paid f.promises

theorem Held.change {n : Int} {g : ExtendableEvent → ExtendableEvent} (h : Held f)
    (hg : (g (f.events n)).phase.Decided f.promises → (g (f.events n)).Paid f.promises) :
    Held (f.change n g) :=
  forall_change (P := fun _ e => e.phase.Decided f.promises → e.Paid f.promises) hg fun m _ => h m

theorem Held.waitUntil (h : Held f) (n : Int) (p : Nat) :
    Held (f.change n fun e => e.waitUntil f.promises p) := by
  refine h.change fun hd => ?_
  have hd : (f.events n).phase.Decided f.promises := hd
  have hpaid := h n hd
  -- past the handlers, with nothing pending, nothing more is owed
  have hno : ¬ ((f.events n).phase.isHandling = true ∨
      ∃ q ∈ (f.events n).owed, ¬ Settled f.promises q) := by
    rintro (hhandling | ⟨q, hq, hpending⟩)
    · cases hphase : (f.events n).phase with
      | handling =>
        rw [hphase] at hd
        exact hd
      | waiting | ended =>
        rw [hphase] at hhandling
        cases hhandling
    · exact hpending (hpaid q hq)
  unfold ExtendableEvent.waitUntil
  rw [if_neg hno]
  exact hpaid

theorem Held.settle (h : Held f) (hf : Sound headersToWire f) {p : Nat} {fulfils : Bool}
    (hw : f.WaitsForAll (.settle p fulfils)) :
    Held { f with promises := Promises.settle f.promises p fulfils } := by
  intro n hd
  have hd : (f.events n).phase.Decided (Promises.settle f.promises p fulfils) := hd
  cases hphase : (f.events n).phase with
  | handling =>
    rw [hphase] at hd
    cases hd
  | waiting kind handled ps => exact hw _ (hf.running n kind handled ps hphase) hd
  | ended kind handled =>
    have hpaid := h n (by rw [hphase]; trivial)
    exact fun q hq => (keeps_settle f.promises p fulfils).settled (hpaid q hq)

theorem Held.step {a : ExtendedAct} (h : Held f) (hf : Sound headersToWire f)
    (hw : f.WaitsForAll a) (hs : step crates headersToWire f a = some f') : Held f' := by
  cases step_cases hs with
  | runtime | finish => exact h
  | waitUntil n p => exact h.waitUntil n p
  | settle p fulfils => exact h.settle hf hw
  | handlersEnd n kind handled hphase hn => exact h.change hw
  | resume n kind handled ps hphase hdecided =>
    exact h.change fun _ => h n (by rw [hphase]; exact hdecided)

theorem Sound.build (ops : Bool) (ms now : Nat) : Sound headersToWire (build ops ms now) where
  coherent := Worker.Coherent.build ops ms now
  running := by
    intro n kind handled ps h
    cases h
  reactions := by
    intro n kind handled h
    simp [Extended.build, Runtime.reactions, Runtime.build, Glue.default, Worker.build] at h
  responded := by
    intro n payload h
    cases h

theorem Held.build (ops : Bool) (ms now : Nat) : Held (build ops ms now) := by
  intro n h
  cases h

/-- An event gets past its handlers by the act that ends them, and keeps what they ended in. -/
theorem step_outcome {a : ExtendedAct} (hs : Extended.step crates headersToWire f a = some f') :
    ∀ n, (f'.events n).phase.outcome = (f.events n).phase.outcome ∨
      ∃ kind handled, a = .handlersEnd n kind handled ∧
        (f'.events n).phase.outcome = some (kind, handled) := by
  let P : Int → ExtendableEvent → Prop := fun n e =>
    e.phase.outcome = (f.events n).phase.outcome ∨ ∃ kind handled,
      a = .handlersEnd n kind handled ∧ e.phase.outcome = some (kind, handled)
  have hsame : ∀ n, P n (f.events n) := fun n => .inl rfl
  cases step_cases hs with
  | runtime | settle | finish => exact hsame
  | waitUntil m p => exact forall_change (P := P) (.inl rfl) fun n _ => hsame n
  | handlersEnd m kind handled hphase hm =>
    refine forall_change (P := P) (.inr ⟨kind, handled, rfl, ?_⟩) fun n _ => hsame n
    unfold ExtendableEvent.endHandlers
    dsimp only
    split <;> rfl
  | resume m kind handled ps hphase hd =>
    refine forall_change (P := P) (.inl ?_) fun n _ => hsame n
    rw [hphase]
    rfl

theorem handlersEnd_of_outcome {ops : Bool} {ms now : Nat} {acts : List ExtendedAct}
    (h : run (Extended.step crates headersToWire) (Extended.build ops ms now) acts = some f)
    {n : Int} {kind : Kind} {handled : Handled}
    (ho : (f.events n).phase.outcome = some (kind, handled)) : .handlersEnd n kind handled ∈ acts := by
  induction acts using List.reverseRecOn generalizing f with
  | nil =>
    cases h
    cases ho
  | append_singleton acts a ih =>
    obtain ⟨m, hm, hs⟩ := run_snoc_some _ h
    rcases step_outcome hs n with heq | ⟨kind', handled', rfl, heq⟩
    · exact List.mem_append_left _ (ih hm (heq ▸ ho))
    · rw [heq] at ho
      cases ho
      exact List.mem_append_right _ List.mem_cons_self

/-- What a dispatch responds with is what its handlers ended in, whatever became of the promises; in a
run that waits for all, it does after all that is owed has settled. -/
theorem waitUntil_is_awaited {ops : Bool} {ms now : Nat} {acts : List ExtendedAct}
    (h : run (Extended.step crates headersToWire) (Extended.build ops ms now) acts = some f)
    {n : Int} {payload : Text} (hr : .responded n payload ∈ f.runtime.glue.settleLog) :
    (∃ kind handled, .handlersEnd n kind handled ∈ acts ∧
        dispatchText headersToWire kind handled = some payload) ∧
      (Meets (Extended.step crates headersToWire) WaitsForAll (Extended.build ops ms now) acts →
        (f.events n).Paid f.promises) := by
  have hsound : Sound headersToWire f :=
    run_inv _ (fun _ _ _ hf hs => hf.step hs) (Sound.build ops ms now) h
  obtain ⟨kind, handled, hphase, htext⟩ := hsound.responded n payload hr
  refine ⟨⟨kind, handled, handlersEnd_of_outcome h (by rw [hphase]; rfl), htext⟩, fun hw => ?_⟩
  have hheld : Sound headersToWire f ∧ Held f := by
    refine run_inv_of_meets _ (P := fun f => Sound headersToWire f ∧ Held f) ?_
      ⟨Sound.build ops ms now, Held.build ops ms now⟩ hw h
    rintro f a f' ⟨hf, hheld⟩ ha hs
    exact ⟨hf.step hs, hheld.step hf ha hs⟩
  exact hheld.2 n (by rw [hphase]; trivial)

/-- a script without a startup, and the dispatch of a task -/
def taskBegins : List ExtendedAct :=
  [.evalOver none, .drainJobs true, .popBinding none, .nextTimer, .finish,
    .exec (.task (some ⟨[], none, .null, none, 1⟩))].map fun a => .runtime (.host a)

/-- a script or job of a dispatch ends, and the next job runs -/
def nextJob : List ExtendedAct :=
  [.runtime (.host (.evalOver none)), .runtime (.host (.drainJobs true))]

/-- A task that returns null is given two promises; after it has returned, the first fulfils and then
the second rejects. -/
def bothSettle : List ExtendedAct :=
  taskBegins ++ [.waitUntil 1 0, .waitUntil 1 1, .runtime .enqueue] ++ nextJob ++
    [.handlersEnd 1 .task (.ended false (.ok .null)), .settle 0 true, .settle 1 false,
      .runtime .enqueue] ++ nextJob ++ [.resume 1, .finish 1] ++ nextJob ++ [.runtime .reacted]

/-- The first promise rejects before the task returns, and the second stays pending. -/
def firstRejects : List ExtendedAct :=
  taskBegins ++ [.waitUntil 1 0, .waitUntil 1 1, .settle 0 false, .runtime .enqueue] ++ nextJob ++
    [.handlersEnd 1 .task (.ended false (.ok .null)), .runtime .enqueue] ++ nextJob ++
    [.resume 1, .finish 1] ++ nextJob ++ [.runtime .reacted]

theorem waitUntil_is_awaited_both : ∃ (f : Extended) (payload : Text),
    .responded 1 payload ∈ f.runtime.glue.settleLog ∧ (f.events 1).owed = [1, 0] ∧
      (f.events 1).Paid f.promises := by
  obtain ⟨f, payload, hrun, hlog, howed⟩ : ∃ (f : Extended) (payload : Text),
      run (Extended.step Crates.bare fun _ => .ok []) (Extended.build false 0 0) bothSettle = some f ∧
        f.runtime.glue.settleLog = [.responded 1 payload,
          .finished 1 (.ended false (.ok .null)), .drained (.ok ())] ∧
        (f.events 1).owed = [1, 0] :=
    ⟨_, _, rfl, rfl, rfl⟩
  have hr : .responded 1 payload ∈ f.runtime.glue.settleLog := by
    rw [hlog]
    exact List.mem_cons_self
  exact ⟨f, payload, hr, howed, (waitUntil_is_awaited hrun hr).2 (by decide +kernel)⟩

/-- A response comes while a promise that it was to wait for is pending. -/
theorem a_rejection_ends_the_wait : ¬ ∀ (f : Extended) (acts : List ExtendedAct) (payload : Text),
    run (Extended.step Crates.bare fun _ => .ok []) (Extended.build false 0 0) acts = some f →
      .responded 1 payload ∈ f.runtime.glue.settleLog → (f.events 1).Paid f.promises := by
  intro h
  obtain ⟨f, payload, hrun, hlog, howed, hpending⟩ : ∃ (f : Extended) (payload : Text),
      run (Extended.step Crates.bare fun _ => .ok []) (Extended.build false 0 0) firstRejects =
          some f ∧
        f.runtime.glue.settleLog = [.responded 1 payload,
          .finished 1 (.ended false (.ok .null)), .drained (.ok ())] ∧
        (f.events 1).owed = [1, 0] ∧ f.promises 1 = .pending :=
    ⟨_, _, rfl, rfl, rfl, rfl⟩
  have hpaid := h f firstRejects payload hrun (by rw [hlog]; exact List.mem_cons_self) 1
    (by rw [howed]; exact List.mem_cons_self)
  exact hpaid hpending

/-! ## orderly runs -/

/-- No promise rejects, none is registered after the handlers have ended, and they end so that their
async function comes to its wait. -/
def Orderly (f : Extended) : ExtendedAct → Prop
  | .settle _ fulfils => fulfils = true
  | .waitUntil n _ => (f.events n).phase.isHandling = true
  | .handlersEnd _ kind handled => comesToWait kind handled = true
  | .runtime _ | .resume _ | .finish _ => True

/-- what the async function of an event waits for, or has waited for, is all that is owed -/
structure Covered (promises : Table Nat) (e : ExtendableEvent) : Prop where
  registered : e.owed ⊆ e.background
  waiting : ∀ kind handled ps, e.phase = .waiting kind handled ps → e.owed ⊆ ps
  ended : ∀ kind handled, e.phase = .ended kind handled → e.Paid promises

structure Quiet (f : Extended) : Prop where
  kept : ∀ p, f.promises p ≠ .rejected
  covered : ∀ n, Covered f.promises (f.events n)

theorem Covered.paid {promises : Table Nat} {e : ExtendableEvent} (h : Covered promises e)
    (hkept : ∀ p, promises p ≠ .rejected) (hd : e.phase.Decided promises) : e.Paid promises := by
  cases hphase : e.phase with
  | handling =>
    rw [hphase] at hd
    cases hd
  | waiting kind handled ps =>
    rw [hphase] at hd
    exact fun p hp => settled_of_all hd (fun p _ => hkept p) p (h.waiting kind handled ps hphase hp)
  | ended kind handled => exact h.ended kind handled hphase

theorem Quiet.change {n : Int} {g : ExtendableEvent → ExtendableEvent} (h : Quiet f)
    (hg : Covered f.promises (g (f.events n))) : Quiet (f.change n g) :=
  ⟨h.kept, forall_change (P := fun _ e => Covered f.promises e) hg fun m _ => h.covered m⟩

theorem Quiet.settle (h : Quiet f) (p : Nat) :
    Quiet { f with promises := Promises.settle f.promises p true } where
  kept := by
    intro q
    show Promises.settle f.promises p true q ≠ .rejected
    unfold Promises.settle
    split
    · by_cases hq : q = p
      · subst hq
        rw [Function.update_self]
        decide
      · rw [Function.update_of_ne hq]
        exact h.kept q
    · exact h.kept q
  covered := by
    intro n
    refine ⟨(h.covered n).registered, (h.covered n).waiting, fun kind handled hphase q hq => ?_⟩
    exact (keeps_settle f.promises p true).settled ((h.covered n).ended kind handled hphase q hq)

theorem Quiet.step {a : ExtendedAct} (h : Quiet f) (ho : f.Orderly a)
    (hs : Extended.step crates headersToWire f a = some f') : Quiet f' := by
  cases step_cases hs with
  | runtime | finish => exact ⟨h.kept, h.covered⟩
  | waitUntil n p =>
    have hhandling : (f.events n).phase = .handling := by
      have ho : (f.events n).phase.isHandling = true := ho
      cases hphase : (f.events n).phase with
      | handling => rfl
      | waiting | ended =>
        rw [hphase] at ho
        cases ho
    refine h.change ⟨?_, fun kind handled ps hphase => ?_, fun kind handled hphase => ?_⟩
    · unfold ExtendableEvent.waitUntil
      rw [if_pos (.inl ho)]
      refine List.cons_subset.mpr ⟨List.mem_append_right _ List.mem_cons_self, ?_⟩
      exact fun q hq => List.mem_append_left _ ((h.covered n).registered hq)
    · cases hhandling.symm.trans hphase
    · cases hhandling.symm.trans hphase
  | settle p fulfils =>
    obtain rfl : fulfils = true := ho
    exact h.settle p
  | handlersEnd n kind handled hphase hn =>
    have hwaits : ((f.events n).endHandlers kind handled).phase =
        .waiting kind handled (f.events n).background := if_pos ho
    refine h.change ⟨(h.covered n).registered, fun kind' handled' ps heq => ?_,
      fun kind' handled' heq => ?_⟩
    · cases hwaits.symm.trans heq
      exact (h.covered n).registered
    · cases hwaits.symm.trans heq
  | resume n kind handled ps hphase hd =>
    refine h.change ⟨(h.covered n).registered, fun kind' handled' ps heq => ?_,
      fun kind' handled' _ => ?_⟩
    · cases heq
    · exact (h.covered n).paid h.kept (by rw [hphase]; exact hd)

/-- an orderly run waits for all -/
theorem waitsForAll_of_orderly {ops : Bool} {ms now : Nat} {acts : List ExtendedAct}
    (h : Meets (Extended.step crates headersToWire) Orderly (Extended.build ops ms now) acts) :
    Meets (Extended.step crates headersToWire) WaitsForAll (Extended.build ops ms now) acts := by
  refine meets_of_meets _ (I := Quiet) (fun _ _ _ hq ho hs => hq.step ho hs) ?_ ?_ h
  · intro f a hq ho
    cases a with
    | settle p fulfils =>
      obtain rfl : fulfils = true := ho
      exact fun d _ hd => ((hq.settle p).covered d.1).paid (hq.settle p).kept hd
    | handlersEnd n kind handled =>
      have hwaits : ((f.events n).endHandlers kind handled).phase =
          .waiting kind handled (f.events n).background := if_pos ho
      intro hd p hp
      rw [hwaits] at hd
      exact settled_of_all hd (fun p _ => hq.kept p) p ((hq.covered n).registered hp)
    | runtime | waitUntil | resume | finish => trivial
  · refine ⟨fun p hp => ?_, fun n => ⟨List.Subset.refl _, ?_, ?_⟩⟩
    · cases hp
    · intro kind handled ps hphase
      cases hphase
    · intro kind handled hphase
      cases hphase

end Extended

end NovaRuntime
