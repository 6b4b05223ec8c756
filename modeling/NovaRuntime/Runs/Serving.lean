import NovaRuntime.Lib.Server
import NovaRuntime.Runs.Outcome
import NovaRuntime.Script.Headers

/-!
# `exec` as a server

The embedder sees a worker through `exec` and `abort`: what `exec` returns, and what it sends on the
channel that came with the event.

* `refusal`      why `exec` ends before it dispatches;
* `Receipt`      what is sent for an event, and what is returned;
* `Serving`      a worker with the event in its hands and the receipts so far;
* `Concluded`    where a receipt comes from;
* `Serving.refines`   a worker is a server of one event at a time;
* `Closed`       what is left of it after `abort`;
* `served_in_order`   every event has one receipt, in order, with what was responded to it.
-/

namespace NovaRuntime
open Lib

/-! ## one event -/

/-- what goes to the `res_tx` of an event -/
inductive Sent where
  | response (r : HttpResponse)
  | result (r : TaskResult)

structure Receipt where
  /-- nothing, if the channel is dropped -/
  sent : Option Sent
  returned : Except TerminationReason Unit

/-- The end of `exec`; `taskErr` is `TaskResult::err` of a reason's description. -/
def conclude (taskErr : TerminationReason → TaskResult) (kind : Kind) :
    Except TerminationReason Output → Receipt
  | .ok (.response r) => ⟨some (.response r.toHttp), .ok ()⟩
  | .ok (.result r) => ⟨some (.result r), .ok ()⟩
  | .error reason =>
    match kind with
    | .task => ⟨some (.result (taskErr reason)), .error reason⟩
    | .build | .fetch => ⟨none, .error reason⟩

/-- the error with which `exec` returns before it dispatches -/
def refusal (aborted : Bool) (event : Event) : Option TerminationReason :=
  if aborted then some .aborted
  else match event with
    | .fetch none => some (.other (txt "FetchInit already taken"))
    | .fetch (some req) =>
      match req.body with
      | .stream => some (.other (txt "Streaming request bodies are not supported"))
      | .none | .bytes _ => none
    | .task none => some (.other (txt "TaskInit already taken"))
    | .task (some _) => none

/-- what a dispatch of this kind makes of the payload that was stored last -/
def payloadOutcome (crates : Crates) (kind : Kind) (payload : Option Text) :
    Except TerminationReason Output :=
  (Worker.take crates kind { HostSlots.default false with outcome := payload }).1

namespace Worker
variable {J : Type} {crates : Crates} {w w' : Worker J}

theorem exec_eq (w : Worker J) (event : Event) : w.exec event =
    match refusal w.aborted event with
    | some reason => w.refuse reason
    | none => w.dispatch event.kind := by
  unfold exec refusal
  by_cases ha : w.aborted = true
  · rw [if_pos ha, if_pos ha]
  · rw [if_neg ha, if_neg ha]
    cases event with
    | fetch init =>
      cases init with
      | none => rfl
      | some req =>
        dsimp only
        cases req.body <;> rfl
    | task init => cases init <;> rfl

theorem take_eq (kind : Kind) (slots : HostSlots) :
    (take crates kind slots).1 = payloadOutcome crates kind slots.outcome := by
  cases kind <;> rfl

/-- the kind of the dispatch in flight -/
def inFlight (w : Worker J) : Option Kind :=
  match w.pc, w.kind with
  | .idle, _ | _, .build => none
  | _, kind => some kind

theorem inFlight_idle (h : w.pc = .idle) : w.inFlight = none := by
  rw [inFlight, h]

theorem inFlight_build (h : w.kind = .build) : w.inFlight = none := by
  rw [inFlight, h]
  split <;> simp_all

theorem inFlight_busy (hpc : w.pc ≠ .idle) (hk : w.kind ≠ .build) :
    w.inFlight = some w.kind := by
  unfold inFlight
  split <;> simp_all

/-- as long as neither point is `idle`, the kind says it all -/
theorem inFlight_congr (hk : w'.kind = w.kind) (hpc : w.pc ≠ .idle) (hpc' : w'.pc ≠ .idle) :
    w'.inFlight = w.inFlight := by
  by_cases hbuild : w.kind = .build
  · rw [inFlight_build hbuild, inFlight_build (hk.trans hbuild)]
  · rw [inFlight_busy hpc hbuild, inFlight_busy hpc' (hk ▸ hbuild), hk]

/-- Between its ends a dispatch stays in flight, and nothing new is begun. -/
theorem step_inFlight {a : Act J} (h : step crates w a = some w') (hexec : ∀ e, a ≠ .exec e)
    (hfinish : a ≠ .finish) (habort : a ≠ .abort) :
    w'.inFlight = w.inFlight ∧ w'.dispatches = w.dispatches ∧ w'.aborted = w.aborted := by
  cases step_cases h with
  | refuse event | dispatch event => exact absurd rfl (hexec event)
  | buildFailed | built | failed | took => exact absurd rfl hfinish
  | abort => exact absurd rfl habort
  | tick => exact ⟨rfl, rfl, rfl⟩
  | enqueue _ _ hpc | respondOther _ _ hpc | respondMatch _ _ hpc | respondPayload _ _ _ _ hpc
  | respondThrows _ _ _ hpc | timerStart _ _ _ _ _ _ hpc | timerClear _ _ hpc
  | binding _ _ _ _ _ _ hpc | drain _ _ hpc | startupThrew _ hpc | dispatcherThrew _ hpc
  | jobOver _ _ _ hpc | callbackOver _ _ hpc | noJobs _ _ hpc | jobCap _ hpc | runJob _ _ _ hpc
  | putBack _ _ _ hpc | noBindings _ hpc | ready _ _ _ _ _ hpc | await _ _ _ hpc
  | answered _ _ _ hpc | elapsed _ _ hpc | noTimers hpc | overran _ _ _ _ _ hpc
  | sleep _ _ _ _ hpc | fireLate _ _ _ _ hpc | wake _ hpc =>
    exact ⟨inFlight_congr rfl (by simp [hpc]) (by simp [hpc]), rfl, rfl⟩

/-- what ends is the evaluation of the scripts -/
theorem step_built (h : step crates w .finish = some w') (hk : w.kind = .build) :
    w'.inFlight = none ∧ w'.dispatches = w.dispatches ∧ w'.aborted = w.aborted := by
  cases step_cases h with
  | buildFailed | built => exact ⟨inFlight_build hk, rfl, rfl⟩
  | failed reason hpc hne | took hpc hne => exact absurd hk hne

variable (crates) in
theorem finish_idle (hk : w.kind ≠ .build) (r : Except TerminationReason Unit) :
    (w.finish crates r).pc = .idle ∧ (w.finish crates r).dispatches = w.dispatches ∧
      (w.finish crates r).aborted = w.aborted := by
  unfold finish
  cases r with
  | error reason =>
    cases h : w.kind with
    | build => exact absurd h hk
    | fetch | task => exact ⟨rfl, rfl, rfl⟩
  | ok u =>
    cases h : w.kind with
    | build => exact absurd h hk
    | fetch | task => exact ⟨rfl, rfl, rfl⟩

theorem log_finish_error (hk : w.kind ≠ .build) (reason : TerminationReason) :
    (w.finish crates (.error reason)).log = .failed w.dispatches reason :: w.log := by
  unfold finish
  cases h : w.kind with
  | build => exact absurd h hk
  | fetch | task => rfl

variable (crates) in
theorem log_finish_ok (hk : w.kind ≠ .build) : (w.finish crates (.ok ())).log =
    .took w.dispatches w.slots.outcome (payloadOutcome crates w.kind w.slots.outcome) :: w.log := by
  unfold finish
  cases h : w.kind with
  | build => exact absurd h hk
  | fetch | task => rfl

theorem step_log {a : Act J} (h : step crates w a = some w') : ∃ late, w'.log = late ++ w.log := by
  cases step_cases h with
  | tick | enqueue | respondMatch | respondThrows | timerStart | timerClear | dispatcherThrew
  | jobOver | callbackOver | noJobs | putBack | noBindings | sleep | built | abort =>
    exact ⟨[], rfl⟩
  | respondOther | respondPayload | binding | drain | startupThrew | jobCap | runJob | answered
  | elapsed | noTimers | fireLate | wake | refuse | dispatch | buildFailed | failed | took =>
    exact ⟨[_], rfl⟩
  | overran => exact ⟨[_, _], rfl⟩
  | ready reply rest p answer log hpc hb ha hlog =>
    rw [hlog]
    split
    · exact ⟨[_, _], rfl⟩
    · exact ⟨[_], rfl⟩
  | await rest p log hpc hb ha hlog =>
    rw [hlog]
    split
    · exact ⟨[_], rfl⟩
    · exact ⟨[], rfl⟩

end Worker

/-! ## the machine -/

/-- a worker with the event in its hands, and the receipts of the events before it -/
structure Serving (J : Type) where
  worker : Worker J
  current : Option Event
  /-- newest first -/
  receipts : List (Replied Event Receipt)

/-- the event that `exec` is called with -/
def Act.event {J : Type} : Act J → Option Event
  | .exec event => some event
  | _ => none

/-- the events of a run -/
def events {J : Type} (acts : List (Act J)) : List Event := acts.filterMap Act.event

theorem events_cons {J : Type} (a : Act J) (acts : List (Act J)) :
    events (a :: acts) = a.event.toList ++ events acts := by
  cases a <;> rfl

namespace Serving
variable {J : Type}

def start (ops : Bool) (maxWallClockTimeMs now : Nat) : Serving J :=
  ⟨Worker.build ops maxWallClockTimeMs now, none, []⟩

def step (taskErr : TerminationReason → TaskResult) (crates : Crates) (s : Serving J) (a : Act J) :
    Option (Serving J) :=
  (Worker.step crates s.worker a).map fun w =>
    match a with
    | .exec event =>
      match refusal s.worker.aborted event with
      | some reason => ⟨w, s.current, ⟨event, none, ⟨none, .error reason⟩⟩ :: s.receipts⟩
      | none => ⟨w, some event, s.receipts⟩
    | .finish =>
      match s.current, s.worker.pc with
      | some event, .ended r => ⟨w, none, ⟨event, some s.worker.dispatches.toNat,
          conclude taskErr event.kind
            (r.bind fun _ => (Worker.take crates event.kind s.worker.slots).1)⟩ :: s.receipts⟩
      | _, _ => ⟨w, s.current, s.receipts⟩
    | _ => ⟨w, s.current, s.receipts⟩

/-- what the embedder sees of it -/
def server (s : Serving J) : Server Event Receipt :=
  ⟨s.current, s.worker.dispatches.toNat, s.worker.aborted, s.receipts⟩

end Serving

/-- Where a receipt comes from: `exec` refused the event, or its dispatch failed, or what was
responded to this dispatch was taken. -/
inductive Concluded (taskErr : TerminationReason → TaskResult) (crates : Crates) (log : List Obs) :
    Replied Event Receipt → Prop
  | refused (event : Event) (reason : TerminationReason) (aborted : Bool)
      (h : refusal aborted event = some reason) :
      Concluded taskErr crates log ⟨event, none, ⟨none, .error reason⟩⟩
  | failed (event : Event) (n : Nat) (reason : TerminationReason)
      (h : .failed n reason ∈ log) :
      Concluded taskErr crates log ⟨event, some n, conclude taskErr event.kind (.error reason)⟩
  | took (event : Event) (n : Nat) (got : Option Text) (late earlier : List Obs)
      (h : log = late ++ .took n got (payloadOutcome crates event.kind got) :: earlier)
      (own : OwnTake n got (payloadOutcome crates event.kind got) earlier) :
      Concluded taskErr crates log
        ⟨event, some n, conclude taskErr event.kind (payloadOutcome crates event.kind got)⟩

theorem Concluded.mono {taskErr : TerminationReason → TaskResult} {crates : Crates}
    {log : List Obs} {x : Replied Event Receipt} (h : Concluded taskErr crates log x)
    (late : List Obs) : Concluded taskErr crates (late ++ log) x := by
  cases h with
  | refused event reason aborted h => exact .refused event reason aborted h
  | failed event n reason h => exact .failed event n reason (List.mem_append_right _ h)
  | took event n got late' earlier h own =>
    exact .took event n got (late ++ late') earlier (by rw [h, List.append_assoc]) own

namespace Serving
variable {J : Type} {taskErr : TerminationReason → TaskResult} {crates : Crates} {s s' : Serving J}

/-- Everything an act can do: most of them only take the worker on. -/
inductive Step (taskErr : TerminationReason → TaskResult) (crates : Crates) (s : Serving J) :
    Act J → Serving J → Prop
  | quiet (a : Act J) (w : Worker J) (h : Worker.step crates s.worker a = some w)
      (hflight : w.inFlight = s.worker.inFlight) (hn : w.dispatches = s.worker.dispatches)
      (ha : w.aborted = s.worker.aborted) (he : a.event = none) :
      Step taskErr crates s a ⟨w, s.current, s.receipts⟩
  | abort (hpc : s.worker.pc = .idle) :
      Step taskErr crates s .abort ⟨{ s.worker with aborted := true }, s.current, s.receipts⟩
  | refuse (event : Event) (reason : TerminationReason) (hpc : s.worker.pc = .idle)
      (hr : refusal s.worker.aborted event = some reason) :
      Step taskErr crates s (.exec event) ⟨s.worker.refuse reason, s.current,
        ⟨event, none, ⟨none, .error reason⟩⟩ :: s.receipts⟩
  | dispatch (event : Event) (hpc : s.worker.pc = .idle)
      (hr : refusal s.worker.aborted event = none) :
      Step taskErr crates s (.exec event)
        ⟨s.worker.dispatch event.kind, some event, s.receipts⟩
  | conclude (event : Event) (r : Except TerminationReason Unit) (hcurrent : s.current = some event)
      (hpc : s.worker.pc = .ended r) :
      Step taskErr crates s .finish ⟨s.worker.finish crates r, none,
        ⟨event, some s.worker.dispatches.toNat, conclude taskErr event.kind
          (r.bind fun _ => (Worker.take crates event.kind s.worker.slots).1)⟩ :: s.receipts⟩

theorem step_exec {event : Event} (h : step taskErr crates s (.exec event) = some s') :
    Step taskErr crates s (.exec event) s' := by
  obtain ⟨w, hw, rfl⟩ := Option.map_eq_some_iff.mp h
  cases hpc : s.worker.pc with
  | idle =>
    simp only [Worker.step, hpc, Option.some.injEq] at hw
    subst hw
    cases hr : refusal s.worker.aborted event with
    | some reason =>
      have hstep : Step taskErr crates s (.exec event) _ := .refuse event reason hpc hr
      simpa only [hr, Worker.exec_eq] using hstep
    | none =>
      have hstep : Step taskErr crates s (.exec event) _ := .dispatch event hpc hr
      simpa only [hr, Worker.exec_eq] using hstep
  | _ => simp only [Worker.step, hpc, reduceCtorEq] at hw

theorem step_finish (hs : s.current.map Event.kind = s.worker.inFlight)
    (h : step taskErr crates s .finish = some s') : Step taskErr crates s .finish s' := by
  obtain ⟨w, hw, rfl⟩ := Option.map_eq_some_iff.mp h
  cases hpc : s.worker.pc with
  | ended r =>
    have hfinish : w = s.worker.finish crates r := by
      simpa only [Worker.step, hpc, Option.some.injEq, eq_comm] using hw
    cases hcurrent : s.current with
    | some event =>
      have hstep : Step taskErr crates s .finish _ := .conclude event r hcurrent hpc
      simpa only [hcurrent, hpc, hfinish] using hstep
    | none =>
      have hnone : s.worker.inFlight = none := by rw [← hs, hcurrent, Option.map_none]
      have hbuild : s.worker.kind = .build := by
        by_contra hk
        rw [Worker.inFlight_busy (by simp [hpc]) hk] at hnone
        cases hnone
      obtain ⟨hflight, hn, ha⟩ := Worker.step_built hw hbuild
      have hstep : Step taskErr crates s .finish ⟨w, s.current, s.receipts⟩ :=
        .quiet .finish w hw (hflight.trans hnone.symm) hn ha rfl
      simpa only [hcurrent] using hstep
  | _ => simp only [Worker.step, hpc, reduceCtorEq] at hw

theorem step_cases {a : Act J} (hs : s.current.map Event.kind = s.worker.inFlight)
    (h : step taskErr crates s a = some s') : Step taskErr crates s a s' := by
  cases a with
  | exec event => exact step_exec h
  | finish => exact step_finish hs h
  | abort =>
    obtain ⟨w, hw, rfl⟩ := Option.map_eq_some_iff.mp h
    cases Worker.step_cases hw with
    | abort hpc => exact .abort hpc
  | _ =>
    obtain ⟨w, hw, rfl⟩ := Option.map_eq_some_iff.mp h
    obtain ⟨hflight, hn, ha⟩ := Worker.step_inFlight hw (by simp) (by simp) (by simp)
    exact .quiet _ w hw hflight hn ha rfl

/-! ## the receipts -/

/-- what holds of a worker that serves -/
structure Sound (taskErr : TerminationReason → TaskResult) (crates : Crates) (s : Serving J) :
    Prop where
  isolated : Worker.Isolated s.worker
  counted : 0 ≤ s.worker.dispatches
  current : s.current.map Event.kind = s.worker.inFlight
  concluded : ∀ x ∈ s.receipts, Concluded taskErr crates s.worker.log x

theorem Sound.start (ops : Bool) (ms now : Nat) :
    Sound taskErr crates (start ops ms now : Serving J) where
  isolated := Worker.Isolated.build ops ms now
  counted := le_refl 0
  current := (Worker.inFlight_build rfl).symm
  concluded := fun _ hx => absurd hx List.not_mem_nil

theorem worker_step {a : Act J} (h : step taskErr crates s a = some s') :
    Worker.step crates s.worker a = some s'.worker := by
  obtain ⟨w, hw, rfl⟩ := Option.map_eq_some_iff.mp h
  refine hw.trans (congrArg some ?_)
  split
  · split <;> rfl
  · split <;> rfl
  · rfl

/-- The event in hand is of the kind of the dispatch. -/
theorem Sound.kind_of_current {event : Event} (hs : Sound taskErr crates s)
    (h : s.current = some event) : s.worker.kind ≠ .build ∧ s.worker.kind = event.kind := by
  have hflight : s.worker.inFlight = some event.kind := by rw [← hs.current, h, Option.map_some]
  have hk : s.worker.kind ≠ .build := by
    intro hbuild
    rw [Worker.inFlight_build hbuild] at hflight
    cases hflight
  have hpc : s.worker.pc ≠ .idle := by
    intro hidle
    rw [Worker.inFlight_idle hidle] at hflight
    cases hflight
  rw [Worker.inFlight_busy hpc hk] at hflight
  exact ⟨hk, Option.some.inj hflight⟩

theorem step_concluded {a : Act J} (hs : Sound taskErr crates s)
    (h : step taskErr crates s a = some s') :
    ∀ x ∈ s'.receipts, Concluded taskErr crates s'.worker.log x := by
  have hw := worker_step h
  have hisolated := hs.isolated.step hw
  have hold : ∀ x ∈ s.receipts, Concluded taskErr crates s'.worker.log x := by
    obtain ⟨late, hlate⟩ := Worker.step_log hw
    intro x hx
    rw [hlate]
    exact (hs.concluded x hx).mono late
  cases step_cases hs.current h with
  | quiet | abort | dispatch => exact hold
  | refuse event reason hpc hr =>
    exact List.forall_mem_cons.mpr ⟨.refused event reason s.worker.aborted hr, hold⟩
  | conclude event r hcurrent hpc =>
    refine List.forall_mem_cons.mpr ⟨?_, hold⟩
    obtain ⟨hk, hkind⟩ := hs.kind_of_current hcurrent
    have hnumber : ((s.worker.dispatches.toNat : Nat) : Int) = s.worker.dispatches :=
      Int.toNat_of_nonneg hs.counted
    cases r with
    | error reason =>
      refine .failed event _ reason ?_
      rw [hnumber]
      show _ ∈ (s.worker.finish crates (.error reason)).log
      rw [Worker.log_finish_error hk]
      exact List.mem_cons_self
    | ok u =>
      have hlog := Worker.log_finish_ok crates hk
      have hown := hisolated.takes
      show Concluded taskErr crates _ ⟨event, some _, conclude taskErr event.kind
        (Worker.take crates event.kind s.worker.slots).1⟩
      rw [Worker.take_eq]
      rw [hkind, ← hnumber] at hlog
      refine .took event _ s.worker.slots.outcome [] s.worker.log hlog ?_
      have hhead : OwnTakes (s.worker.finish crates (.ok ())).log := hown
      rw [hlog] at hhead
      exact hhead.1

theorem Sound.step {a : Act J} (hs : Sound taskErr crates s)
    (h : step taskErr crates s a = some s') : Sound taskErr crates s' where
  isolated := hs.isolated.step (worker_step h)
  counted := by
    have hle := hs.counted
    cases step_cases hs.current h with
    | quiet _ w _ _ hn =>
      show 0 ≤ w.dispatches
      omega
    | abort | refuse => exact hle
    | dispatch =>
      show 0 ≤ s.worker.dispatches + 1
      omega
    | conclude event r hcurrent hpc =>
      show 0 ≤ (s.worker.finish crates r).dispatches
      rw [(Worker.finish_idle crates (hs.kind_of_current hcurrent).1 r).2.1]
      exact hle
  current := by
    have hcurrent := hs.current
    cases step_cases hs.current h with
    | quiet _ w _ hflight => exact hcurrent.trans hflight.symm
    | abort hpc => exact hcurrent
    | refuse => exact hcurrent
    | dispatch event =>
      have hpc : (s.worker.dispatch event.kind).pc ≠ .idle := by simp [Worker.dispatch]
      exact (Worker.inFlight_busy hpc event.kind_ne_build).symm
    | conclude event r hc hpc =>
      have hidle := (Worker.finish_idle crates (hs.kind_of_current hc).1 r).1
      exact (Worker.inFlight_idle hidle).symm
  concluded := step_concluded hs h

/-- One act is at most one move of a server, and asks it what `exec` is asked. -/
theorem refines {a : Act J} (hs : Sound taskErr crates s)
    (h : step taskErr crates s a = some s') :
    ∃ ms, run Server.step s.server ms = some s'.server ∧ Server.asked ms = a.event.toList := by
  have hidle : s.worker.pc = .idle → s.current = none := by
    intro hpc
    have hnone := hs.current
    rw [Worker.inFlight_idle hpc] at hnone
    exact Option.map_eq_none_iff.mp hnone
  cases step_cases hs.current h with
  | quiet a w hw hflight hn ha he =>
    refine ⟨[], ?_, by rw [he]; rfl⟩
    rw [run_nil, server, server, hn, ha]
  | abort hpc =>
    refine ⟨[.close], run_one _ ?_, rfl⟩
    rw [Server.step, server, hidle hpc]
    rfl
  | refuse event reason hpc hr =>
    refine ⟨[.turnAway event ⟨none, .error reason⟩], run_one _ ?_, rfl⟩
    rw [Server.step, server, hidle hpc]
    rfl
  | dispatch event hpc hr =>
    refine ⟨[.take event], run_one _ ?_, rfl⟩
    have hopen : s.worker.aborted = false := by
      by_contra ha
      unfold refusal at hr
      rw [if_pos (by simpa using ha)] at hr
      cases hr
    have hcounted := hs.counted
    have hn : (s.worker.dispatches + 1).toNat = s.worker.dispatches.toNat + 1 := by omega
    rw [Server.step, server, hidle hpc, hopen, server]
    show some (Server.mk (some event) (s.worker.dispatches.toNat + 1) false s.receipts) =
      some (Server.mk (some event) (s.worker.dispatches + 1).toNat s.worker.aborted s.receipts)
    rw [hn, hopen]
  | conclude event r hcurrent hpc =>
    refine ⟨[.answer (conclude taskErr event.kind
      (r.bind fun _ => (Worker.take crates event.kind s.worker.slots).1))], run_one _ ?_, rfl⟩
    obtain ⟨-, hn, ha⟩ := Worker.finish_idle crates (hs.kind_of_current hcurrent).1 r
    rw [Server.step, server, hcurrent, server, hn, ha]

/-- A run of a worker is a run of a server, and asks it what `exec` is asked. -/
theorem run_refines {acts : List (Act J)} (hs : Sound taskErr crates s)
    (h : run (step taskErr crates) s acts = some s') :
    Sound taskErr crates s' ∧
      ∃ ms, run Server.step s.server ms = some s'.server ∧ Server.asked ms = events acts := by
  induction acts generalizing s with
  | nil =>
    rw [run_nil, Option.some.injEq] at h
    subst h
    exact ⟨hs, [], rfl, rfl⟩
  | cons a acts ih =>
    obtain ⟨m, h1, h2⟩ := run_cons_some _ h
    obtain ⟨ms, hms, hasked⟩ := refines hs h1
    obtain ⟨hs', ns, hns, hasked'⟩ := ih (hs.step h1) h2
    refine ⟨hs', ms ++ ns, ?_, ?_⟩
    · rw [run_append, hms]
      exact hns
    · rw [Server.asked_append, hasked, hasked']
      exact (events_cons a acts).symm

/-! ## after `abort` -/

/-- the receipt of an event that comes after `abort` -/
def turnedAway (event : Event) : Replied Event Receipt := ⟨event, none, ⟨none, .error .aborted⟩⟩

/-- what is left of a worker after `abort` when these events came -/
structure Closed (s : Serving J) (came : List Event) (s' : Serving J) : Prop where
  idle : s'.worker.pc = .idle
  aborted : s'.worker.aborted = true
  current : s'.current = s.current
  receipts : s'.receipts = (came.map turnedAway).reverse ++ s.receipts
  log : s'.worker.log = (came.map fun _ => .refused .aborted).reverse ++ s.worker.log

theorem Closed.step {a : Act J} {came : List Event} {m : Serving J} (hm : Closed s came m)
    (h : step taskErr crates m a = some s') : Closed s (came ++ a.event.toList) s' := by
  cases a with
  | exec event =>
    have hreason : refusal m.worker.aborted event = some .aborted := by
      unfold refusal
      rw [if_pos hm.aborted]
    cases step_exec h with
    | quiet w _ _ _ _ _ he => cases he
    | dispatch _ hpc hr =>
      rw [hreason] at hr
      cases hr
    | refuse _ reason hpc hr =>
      rw [hreason] at hr
      cases hr
      refine ⟨hm.idle, hm.aborted, hm.current, ?_, ?_⟩
      · show turnedAway event :: m.receipts = _
        rw [hm.receipts, Act.event, Option.toList_some, List.map_append, List.reverse_append]
        rfl
      · show .refused .aborted :: m.worker.log = _
        rw [hm.log, Act.event, Option.toList_some, List.map_append, List.reverse_append]
        rfl
  | tick d =>
    obtain ⟨w, hw, rfl⟩ := Option.map_eq_some_iff.mp h
    show Closed s (came ++ []) _
    rw [List.append_nil]
    cases hw
    exact ⟨hm.idle, hm.aborted, hm.current, hm.receipts, hm.log⟩
  | abort =>
    obtain ⟨w, hw, rfl⟩ := Option.map_eq_some_iff.mp h
    show Closed s (came ++ []) _
    rw [List.append_nil]
    cases Worker.step_cases hw with
    | abort hpc => exact ⟨hm.idle, rfl, hm.current, hm.receipts, hm.log⟩
  | _ =>
    obtain ⟨w, hw, rfl⟩ := Option.map_eq_some_iff.mp h
    simp only [Worker.step, hm.idle, reduceCtorEq] at hw

/-- After `abort` every event is refused with the same error, nothing is sent for it, and the worker
does nothing else. -/
theorem nothing_after_abort {acts : List (Act J)} {t : Serving J}
    (habort : step taskErr crates s .abort = some s')
    (h : run (step taskErr crates) s' acts = some t) : Closed s (events acts) t := by
  have hclosed : Closed s [] s' := by
    obtain ⟨w, hw, rfl⟩ := Option.map_eq_some_iff.mp habort
    cases Worker.step_cases hw with
    | abort hpc => exact ⟨hpc, rfl, rfl, rfl, rfl⟩
  suffices hall : ∀ (m : Serving J) came, Closed s came m →
      run (step taskErr crates) m acts = some t → Closed s (came ++ events acts) t from
    hall s' [] hclosed h
  clear h hclosed habort
  induction acts with
  | nil =>
    intro m came hm h
    rw [run_nil, Option.some.injEq] at h
    subst h
    exact (List.append_nil came).symm ▸ hm
  | cons a acts ih =>
    intro m came hm h
    obtain ⟨m', h1, h2⟩ := run_cons_some _ h
    rw [events_cons, ← List.append_assoc]
    exact ih m' _ (hm.step h1) h2

/-! ## over a run -/

/-- In a run of a worker every event that `exec` was called with has one receipt, in their order, but
the one in its hands.  Those that were dispatched are numbered without a gap, and each got what was
responded to its own number, or the reason why it failed.  Those after an `abort` are turned away. -/
theorem served_in_order {ops : Bool} {ms now : Nat} {acts : List (Act J)}
    (h : run (step taskErr crates) (start ops ms now) acts = some s) :
    (s.receipts.map Replied.request).reverse ++ s.current.toList = events acts ∧
      s.server.Numbered ∧ (∀ x ∈ s.receipts, Concluded taskErr crates s.worker.log x) ∧
      ∀ early late, acts = early ++ .abort :: late →
        ∃ m, run (step taskErr crates) (start ops ms now) early = some m ∧
          Closed m (events late) s := by
  obtain ⟨hs, moves, hmoves, hasked⟩ := run_refines (Sound.start ops ms now) h
  refine ⟨?_, Server.run_numbered hmoves, hs.concluded, fun early late hacts => ?_⟩
  · have hrequests := Server.run_asked hmoves
    rw [hasked] at hrequests
    exact hrequests
  · rw [hacts, run_append] at h
    obtain ⟨m, hm, h⟩ := Option.bind_eq_some_iff.mp h
    obtain ⟨m', habort, h⟩ := run_cons_some _ h
    exact ⟨m, hm, nothing_after_abort habort h⟩

/-- a task that is served, an event that was taken before, and one after `abort` -/
def servedActs : List (Act Unit) :=
  [.evalOver none, .drainJobs true, .popBinding none, .nextTimer, .finish,
    .exec (.task (some ⟨[], none, .null, none, 0⟩)), .guest (.respondId (.fin 1)),
    .guest (.respondPayload (txt "\x7b\"value\":\x7b\"success\":true\x7d\x7d")), .evalOver none,
    .drainJobs true, .popBinding none, .nextTimer, .finish, .exec (.fetch none), .abort, .tick 1,
    .exec (.task (some ⟨[], none, .null, none, 0⟩))]

/-- a `TaskResult` without a description -/
def sampleErr (_ : TerminationReason) : TaskResult := ⟨false, none, some []⟩

theorem served_in_order_abort :
    ∃ s m : Serving Unit, run (step sampleErr .bare) (start false 0 0) servedActs = some s ∧
      s.receipts.length = 3 ∧ s.server.Numbered ∧
      (∀ x ∈ s.receipts, Concluded sampleErr .bare s.worker.log x) ∧
      Closed m [.task (some ⟨[], none, .null, none, 0⟩)] s := by
  obtain ⟨s, hrun, hlength⟩ : ∃ s : Serving Unit,
      run (step sampleErr .bare) (start false 0 0) servedActs = some s ∧ s.receipts.length = 3 :=
    ⟨_, rfl, rfl⟩
  obtain ⟨-, hnumbered, hconcluded, habort⟩ := served_in_order hrun
  obtain ⟨m, -, hclosed⟩ := habort (servedActs.take 14) (servedActs.drop 15) rfl
  exact ⟨s, m, hrun, hlength, hnumbered, hconcluded, hclosed⟩

end Serving

end NovaRuntime
