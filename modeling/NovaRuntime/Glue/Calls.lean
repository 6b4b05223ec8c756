import NovaRuntime.Glue.Runtime

/-!
# Binding calls over both sides

A call lives in the host's queue, as a future, and in the glue's map, as the two ends of a promise;
only the id joins them.  `CallView` is what the two sides hold of calls, `Moves` all that a step of
the runtime does to it.

* `history`        what the log says of one call;
* `Waits`, `Opened`, `Answered`   the histories of a call that is not over, or is;
* `step_moves`     every step of a runtime is a move of its view.
-/

namespace NovaRuntime
open Lib

def CallNote.about : CallNote → Option F64
  | .call id | .asked id _ | .settled id _ => some (.ofNat id)
  | .answered id _ | .expired id => some id
  | .drained _ => none

def history (k : Nat) (log : List CallNote) : List CallNote :=
  log.filter fun e => e.about = some (.ofNat k)

theorem history_cons_self {k : Nat} {e : CallNote} {log : List CallNote}
    (he : e.about = some (.ofNat k)) : history k (e :: log) = e :: history k log := by
  simp [history, he]

theorem history_cons_other {k : Nat} {e : CallNote} {log : List CallNote}
    (he : e.about ≠ some (.ofNat k)) : history k (e :: log) = history k log := by
  simp [history, he]

theorem mem_history {k : Nat} {e : CallNote} {log : List CallNote}
    (he : e.about = some (.ofNat k)) : e ∈ history k log ↔ e ∈ log := by
  simp [history, he]

theorem about_ne {j k : Nat} (h : j ≠ k) : some (F64.ofNat j) ≠ some (F64.ofNat k) :=
  fun heq => h (F64.ofNat_inj.mp (Option.some.inj heq))

/-- what settling a call leaves in the log -/
def settlement (crates : Crates) (k : Nat) (answer : Except Text Text) : List CallNote :=
  match answerOutcome crates answer with
  | some outcome => [.settled k outcome]
  | none => []

/-- a future that needs no handler answers with an error -/
def ReadyIsError (future : Answer) : Prop := ∀ a, future = .ready a → ∃ e, a = .error e

theorem readyIsError_answer (crates : Crates) (kind name params : Text) :
    ReadyIsError (answer crates kind name params) := by
  intro a ha
  rw [answer, bindingFetch, httpFetch, bindingQuery, bindingInvoke] at ha
  repeat' split at ha
  all_goals first
    | cases ha
      exact ⟨_, rfl⟩
    | cases ha

theorem readyIsError_bindingAnswer (crates : Crates) (ops : Bool) (kind name params : Text) :
    ReadyIsError (HostSlots.bindingAnswer crates ops kind name params) := by
  cases ops with
  | true => exact readyIsError_answer crates kind name params
  | false =>
    intro a ha
    cases ha
    exact ⟨_, rfl⟩

/-! ## the view -/

structure CallView where
  /-- the host's queue -/
  queue : List Pending
  /-- the call whose answer the drain waits for -/
  awaited : Option Pending
  /-- the glue's map -/
  table : List Nat
  next : Nat
  /-- the calls that serialise their parameters -/
  opened : List Nat
  log : List CallNote

namespace CallView

def settle (crates : Crates) (v : CallView) (id : F64) (answer : Except Text Text) : CallView :=
  { v with
    table := (settleBinding crates v.table v.log id answer).1
    log := (settleBinding crates v.table v.log id answer).2 }

/-- what a step can do to calls -/
inductive Moves (crates : Crates) (v : CallView) : CallView → Prop
  | idle : Moves crates v v
  | call : Moves crates v { v with
      table := v.table ++ [v.next]
      next := v.next + 1
      opened := v.next :: v.opened
      log := .call v.next :: v.log }
  | ask (k rest answer call origin) (hr : ReadyIsError answer) (ha : v.awaited = none)
      (ho : v.opened = k :: rest) :
      Moves crates v { v with
        queue := v.queue ++ [⟨.ofNat k, answer, call, origin⟩]
        opened := rest
        log := .asked k answer :: v.log }
  | throw (k rest) (ho : v.opened = k :: rest) :
      Moves crates v { v with opened := rest, log := .settled k .thrown :: v.log }
  | await (rest p) (ha : v.awaited = none) (hq : v.queue = rest ++ [p]) :
      Moves crates v { v with queue := rest, awaited := some p }
  | ready (rest p reply answer) (ha : v.awaited = none) (hq : v.queue = rest ++ [p])
      (hp : p.answer.poll crates reply = some answer) :
      Moves crates v ({ v with queue := rest }.settle crates p.id answer)
  | answered (p reply answer) (ha : v.awaited = some p)
      (hp : p.answer.poll crates reply = some answer) :
      Moves crates v ({ v with awaited := none }.settle crates p.id answer)
  | expire (p reason) (ha : v.awaited = some p) : Moves crates v { v with
      awaited := none, log := .drained (.error reason) :: .expired p.id :: v.log }
  | drained (r) (hr : r = .ok () → v.queue = [] ∧ v.awaited = none ∧ v.opened = []) :
      Moves crates v { v with log := .drained r :: v.log }

end CallView

def Frame.call? {S : Type} : Frame S → Option Nat
  | .call id _ _ => some id
  | .schedule _ _ | .reaction _ _ _ => none

namespace Runtime
variable {S : Type} {crates : Crates} {wire : Kind → S → Option Text} {f f' : Runtime S}

def callView (f : Runtime S) : CallView where
  queue := f.worker.slots.bindings
  awaited := match f.worker.pc with
    | .awaiting p => some p
    | _ => none
  table := f.glue.pending
  next := f.glue.next
  opened := f.glue.frames.filterMap Frame.call?
  log := f.glue.callLog

theorem calls_idle (heq : f'.callView = f.callView) :
    CallView.Moves crates f.callView f'.callView :=
  heq ▸ .idle

theorem awaited_eval {c : Cont (Work S)} (hpc : f.worker.pc = .eval c) :
    f.callView.awaited = none := by
  simp [callView, hpc]

theorem host_calls {a : Act (Work S)} {w : Worker (Work S)} (hf : Calm f)
    (hn : Worker.Drained f.worker)
    (hmay : f.hostMay a = true) (hw : Worker.step crates f.worker a = some w) :
    CallView.Moves crates f.callView (Runtime.callView ⟨w, f.glue.follow crates f.worker w a⟩) := by
  cases Worker.step_cases hw with
  | tick d => exact calls_idle rfl
  | enqueue | respondOther | respondMatch | respondPayload | respondThrows | timerStart
  | timerClear | binding => cases hmay
  | drain _ _ hpc | startupThrew _ hpc | dispatcherThrew _ hpc | jobOver _ _ _ hpc
  | callbackOver _ _ hpc | noJobs _ _ hpc | putBack _ _ _ hpc | noBindings _ hpc
  | buildFailed _ hpc | built hpc | failed _ hpc | took hpc | sleep _ _ _ _ hpc
  | dispatch _ _ hpc | fireLate _ _ _ _ hpc | wake _ hpc | refuse _ _ hpc | abort hpc =>
    exact calls_idle (by simp [callView, Glue.follow, Glue.enter, hpc])
  | runJob left job jobs hpc =>
    refine calls_idle ?_
    cases job.work with
    | other => simp [callView, Glue.follow, Glue.enter, hpc]
    | reaction n kind s =>
      simp [callView, Glue.follow, Glue.enter, hpc, List.filterMap_cons, Frame.call?]
  | jobCap finished hpc =>
    have hmove : CallView.Moves crates f.callView _ := .drained
      (.error .maxIterationsReached) (by simp)
    simpa [callView, Glue.follow, Glue.enter, hpc] using hmove
  | ready reply rest p answer log hpc hb ha =>
    have hmove := CallView.Moves.ready (v := f.callView) rest p reply answer
      (by simp [callView, hpc]) hb ha
    simpa [callView, CallView.settle, Glue.follow, Glue.enter, hpc] using hmove
  | await rest p log hpc hb =>
    have hmove : CallView.Moves crates f.callView _ := .await rest p
      (by simp [callView, hpc]) hb
    simpa [callView, Glue.follow, Glue.enter, hpc] using hmove
  | answered reply p answer hpc ha =>
    have hmove := CallView.Moves.answered (v := f.callView) p (some reply) answer
      (by simp [callView, hpc]) ha
    simpa [callView, CallView.settle, Glue.follow, Glue.enter, hpc] using hmove
  | elapsed p deadline hpc =>
    have hmove : CallView.Moves crates f.callView _ := .expire p .wallClockTimeout
      (by simp [callView, hpc])
    simpa [callView, Glue.follow, Glue.expire, Glue.enter, hpc] using hmove
  | noTimers hpc ht =>
    have hb : f.worker.slots.bindings = [] := by
      rw [Worker.Drained, hpc] at hn
      exact hn.2
    have hfr : f.glue.frames = [] := hf (by simp [hpc])
    have hmove : CallView.Moves crates f.callView _ := .drained (.ok ())
      (fun _ => ⟨hb, by simp [callView, hpc], by simp [callView, hfr]⟩)
    simpa [callView, Glue.follow, Glue.enter, hpc] using hmove
  | overran pre t post next deadline hpc =>
    have hmove : CallView.Moves crates f.callView _ := .drained
      (.error .wallClockTimeout) (by simp)
    simpa [callView, Glue.follow, Glue.enter, hpc] using hmove

theorem native_bindings {g : Guest (Work S)} {w w' : Worker (Work S)}
    (hw : Worker.step crates w (.guest g) = some w')
    (hg : ∀ id kind name params, g ≠ .binding id kind name params) :
    w'.slots.bindings = w.slots.bindings := by
  cases Worker.step_cases hw with
  | binding id kind name params => exact absurd rfl (hg id kind name params)
  | _ => rfl

theorem respond_bindings {n : Int} {payload : Text} {w w' : Worker (Work S)}
    (hw : respond crates w n payload = some w') : w'.slots.bindings = w.slots.bindings := by
  obtain ⟨w₁, hid, hpay⟩ := Option.bind_eq_some_iff.mp hw
  have hb := native_bindings hid (by simp)
  split at hpay
  · exact (native_bindings hpay (by simp)).trans hb
  · cases hpay
    exact hb

theorem step_calls {a : GlueAct S} (hf : Calm f)
    (hn : Worker.Drained f.worker)
    (h : step crates wire f a = some f') : CallView.Moves crates f.callView f'.callView := by
  cases step_cases h with
  | host a w hmay hw => exact host_calls hf hn hmay hw
  | enqueue w hw =>
    obtain ⟨-, hpc, -⟩ := native_pc hw
    have hb := native_bindings hw (by simp)
    exact calls_idle (by simp [callView, hpc, hb])
  | schedule r => exact calls_idle rfl
  | scheduled handle r frames delay d w hfr hd hw =>
    obtain ⟨-, hpc, -⟩ := native_pc hw
    have hb := native_bindings hw (by simp)
    exact calls_idle (by simp [callView, hpc, hb, hfr, List.filterMap_cons, Frame.call?])
  | scheduleThrows handle r frames hfr | silent n kind s frames hfr =>
    exact calls_idle (by simp [callView, hfr, List.filterMap_cons, Frame.call?])
  | cancel id w hw =>
    obtain ⟨-, hpc, -⟩ := native_pc hw
    have hb := native_bindings hw (by simp)
    exact calls_idle (by simp [callView, hpc, hb])
  | call kind name => exact .call
  | called id kind name frames params w hfr hw =>
    cases Worker.step_cases hw with
    | binding _ _ _ _ answer c hpc ha =>
      have hmove : CallView.Moves crates f.callView _ := .ask id
        (frames.filterMap Frame.call?) answer f.worker.calls f.worker.dispatches
        (ha ▸ readyIsError_bindingAnswer crates _ kind name params) (awaited_eval hpc)
        (by simp [callView, hfr, Frame.call?])
      rw [← ha]
      exact hmove
  | callThrows id kind name frames hfr =>
    exact .throw id (frames.filterMap Frame.call?) (by simp [callView, hfr, Frame.call?])
  | settles n kind s w hn hw =>
    obtain ⟨-, hpc, -⟩ := native_pc hw
    have hb := native_bindings hw (by simp)
    exact calls_idle (by simp [callView, hpc, hb])
  | responded n kind s frames payload w hfr hs hw =>
    obtain ⟨-, hpc, -⟩ := respond_pc hw
    have hb := respond_bindings hw
    exact calls_idle (by simp [callView, hpc, hb, hfr, List.filterMap_cons, Frame.call?])

end Runtime

end NovaRuntime
