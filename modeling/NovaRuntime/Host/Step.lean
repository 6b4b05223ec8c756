import NovaRuntime.Host.Worker

/-!
# What one act of the worker can do

* `Step`, `step_cases`   the cases of `step`, with what each of them needs and changes;
* `Reached`, `Reached.inv`   the states of the runs of a worker, from its start;
* `Coherent`, `Drained`   what the point of the control flow says about the rest of the state.
-/

namespace NovaRuntime
open Lib

theorem Event.kind_ne_build (event : Event) : event.kind ≠ .build := by
  cases event <;> simp [Event.kind]

namespace Worker
variable {J : Type}

/-- Everything an act can do. -/
inductive Step (crates : Crates) (w : Worker J) : Act J → Worker J → Prop
  | tick (d) : Step crates w (.tick d) { w with now := w.now + d }
  | enqueue (work c) (hpc : w.pc = .eval c) :
      Step crates w (.guest (.enqueue work)) { w with jobs := w.jobs ++ [⟨work, w.dispatches⟩] }
  | respondOther (id c) (hpc : w.pc = .eval c) (hid : id.intoI64 ≠ w.slots.dispatch) :
      Step crates w (.guest (.respondId id))
        { w with log := .responded id.intoI64 none :: w.log }
  | respondMatch (id c) (hpc : w.pc = .eval c) (hid : id.intoI64 = w.slots.dispatch) :
      Step crates w (.guest (.respondId id)) { w with frames := id.intoI64 :: w.frames }
  | respondPayload (payload id frames c) (hpc : w.pc = .eval c) (hf : w.frames = id :: frames) :
      Step crates w (.guest (.respondPayload payload)) { w with
        slots := { w.slots with outcome := some payload }
        frames := frames
        log := .responded id (some payload) :: w.log }
  | respondThrows (id frames c) (hpc : w.pc = .eval c) (hf : w.frames = id :: frames) :
      Step crates w (.guest .respondThrows) { w with frames := frames }
  | timerStart (handle delay repeating d due c) (hpc : w.pc = .eval c)
      (hd : HostSlots.delayOf delay = some d) (hdue : addDuration w.now d = some due) :
      Step crates w (.guest (.timerStart handle delay repeating)) { w with
        slots := { w.slots with
          timerSeq := w.slots.timerSeq + 1
          timers := w.slots.timers ++
            [⟨handle, due, if repeating then some d else none, w.slots.timerSeq, w.dispatches⟩] } }
  | timerClear (handle c) (hpc : w.pc = .eval c) :
      Step crates w (.guest (.timerClear handle)) { w with
        slots := { w.slots with
          timers := w.slots.timers.filter fun t => !F64.eq t.handle handle } }
  | binding (id kind name params answer c) (hpc : w.pc = .eval c)
      (ha : answer = HostSlots.bindingAnswer crates w.slots.ops kind name params) :
      Step crates w (.guest (.binding id kind name params)) { w with
        slots := { w.slots with
          bindings := w.slots.bindings ++ [⟨id, answer, w.calls, w.dispatches⟩] }
        calls := w.calls + 1
        log := .called w.calls answer.asks :: w.log }
  | drain (c deadline) (hpc : w.pc = .eval c) (hf : w.frames = [])
      (hc : c = .startup ∨ c = .dispatcher)
      (hd : deadline = w.wallClock.map fun budget => w.now + budget) :
      Step crates w (.evalOver none)
        { w with
          deadline := deadline, pc := .jobs maxJobsPerDrain, log := .draining w.now :: w.log }
  | startupThrew (message) (hpc : w.pc = .eval .startup) (hf : w.frames = []) :
      Step crates w (.evalOver (some message))
        { w with pc := .dead, log := .refused (.exception message) :: w.log }
  | dispatcherThrew (message) (hpc : w.pc = .eval .dispatcher) (hf : w.frames = []) :
      Step crates w (.evalOver (some message))
        { w with pc := .ended (.error (.exception message)) }
  | jobOver (thrown left work) (hpc : w.pc = .eval (.job left work)) (hf : w.frames = []) :
      Step crates w (.evalOver thrown) { w with pc := .jobs left }
  | callbackOver (thrown c) (hpc : w.pc = .eval c) (hf : w.frames = [])
      (hc : (∃ id answer, c = .settle id answer) ∨ ∃ handle, c = .timer handle) :
      Step crates w (.evalOver thrown) { w with pc := .jobs maxJobsPerDrain }
  | noJobs (finished left) (hpc : w.pc = .jobs left) (hj : w.jobs = []) :
      Step crates w (.drainJobs finished) { w with pc := .bindings }
  | jobCap (finished) (hpc : w.pc = .jobs 0) (hj : w.jobs ≠ []) :
      Step crates w (.drainJobs finished) { w with
        jobs := []
        pc := .ended (.error .maxIterationsReached)
        log := .drained w.dispatches (.error .maxIterationsReached) :: w.log }
  | runJob (left job jobs) (hpc : w.pc = .jobs (left + 1)) (hj : w.jobs = job :: jobs) :
      Step crates w (.drainJobs true) { w with
        jobs := jobs
        pc := .eval (.job left job.work)
        log := .ranJob job.origin w.dispatches :: w.log }
  | putBack (left job jobs) (hpc : w.pc = .jobs (left + 1)) (hj : w.jobs = job :: jobs) :
      Step crates w (.drainJobs false) { w with jobs := jobs ++ [job], pc := .jobs left }
  | noBindings (reply) (hpc : w.pc = .bindings) (hb : w.slots.bindings = []) :
      Step crates w (.popBinding reply) { w with pc := .timers }
  | ready (reply rest p answer log) (hpc : w.pc = .bindings)
      (hb : w.slots.bindings = rest ++ [p]) (ha : p.answer.poll crates reply = some answer)
      (hlog : log = if p.answer.asks then .invoked p.call :: w.log else w.log) :
      Step crates w (.popBinding reply) { w with
        slots := { w.slots with bindings := rest }
        pc := .eval (.settle p.id answer)
        log := .settled p answer w.dispatches w.now false :: log }
  | await (rest p log) (hpc : w.pc = .bindings) (hb : w.slots.bindings = rest ++ [p])
      (ha : p.answer.poll crates none = none)
      (hlog : log = if p.answer.asks then .invoked p.call :: w.log else w.log) :
      Step crates w (.popBinding none) { w with
        slots := { w.slots with bindings := rest }
        pc := .awaiting p
        log := log }
  | answered (reply p answer) (hpc : w.pc = .awaiting p)
      (ha : p.answer.poll crates (some reply) = some answer) :
      Step crates w (.answered reply) { w with
        pc := .eval (.settle p.id answer)
        log := .settled p answer w.dispatches w.now true :: w.log }
  | elapsed (p deadline) (hpc : w.pc = .awaiting p) (hd : w.deadline = some deadline)
      (hle : deadline ≤ w.now) :
      Step crates w .elapsed { w with
        pc := .ended (.error .wallClockTimeout)
        log := .drained w.dispatches (.error .wallClockTimeout) :: w.log }
  | noTimers (hpc : w.pc = .timers) (ht : w.slots.timers = []) :
      Step crates w .nextTimer { w with
        pc := .ended (.ok ())
        log := .drained w.dispatches (.ok ()) :: w.log }
  | overran (pre t post next deadline) (hpc : w.pc = .timers)
      (ht : firstDue w.slots.timers = some (pre, t, post)) (hn : rearm t = some next)
      (hd : w.deadline = some deadline) (hlt : deadline < t.due) :
      Step crates w .nextTimer { w with
        slots := { w.slots with timers := [] }
        pc := .ended (.error .wallClockTimeout)
        log := .drained w.dispatches (.error .wallClockTimeout) ::
          .overran t w.dispatches :: w.log }
  | sleep (pre t post next) (hpc : w.pc = .timers)
      (ht : firstDue w.slots.timers = some (pre, t, post)) (hn : rearm t = some next)
      (hd : ∀ deadline, w.deadline = some deadline → t.due ≤ deadline) (hle : w.now ≤ t.due) :
      Step crates w .nextTimer { w with
        slots := { w.slots with timers := pre ++ next ++ post }
        pc := .sleeping t }
  | fireLate (pre t post next) (hpc : w.pc = .timers)
      (ht : firstDue w.slots.timers = some (pre, t, post)) (hn : rearm t = some next)
      (hd : ∀ deadline, w.deadline = some deadline → t.due ≤ deadline) (hlt : t.due < w.now) :
      Step crates w .nextTimer { w with
        slots := { w.slots with timers := pre ++ next ++ post }
        pc := .eval (.timer t.handle)
        log := .fired t w.dispatches w.now false :: w.log }
  | wake (t) (hpc : w.pc = .sleeping t) (hle : t.due ≤ w.now) :
      Step crates w .wake { w with
        pc := .eval (.timer t.handle)
        log := .fired t w.dispatches w.now true :: w.log }
  | refuse (event reason) (hpc : w.pc = .idle) :
      Step crates w (.exec event) { w with log := .refused reason :: w.log }
  | dispatch (event kind) (hpc : w.pc = .idle) (ha : w.aborted = false)
      (hk : kind = event.kind) :
      Step crates w (.exec event) { w with
        dispatches := w.dispatches + 1
        slots := { w.slots with dispatch := w.dispatches + 1, outcome := none }
        kind := kind
        pc := .eval .dispatcher
        log := .began (w.dispatches + 1) :: w.log }
  | buildFailed (reason) (hpc : w.pc = .ended (.error reason)) (hk : w.kind = .build) :
      Step crates w .finish { w with pc := .dead, log := .refused reason :: w.log }
  | built (hpc : w.pc = .ended (.ok ())) (hk : w.kind = .build) :
      Step crates w .finish { w with pc := .idle }
  | failed (reason) (hpc : w.pc = .ended (.error reason)) (hk : w.kind ≠ .build) :
      Step crates w .finish
        { w with pc := .idle, log := .failed w.dispatches reason :: w.log }
  | took (hpc : w.pc = .ended (.ok ())) (hk : w.kind ≠ .build) :
      Step crates w .finish { w with
        slots := { w.slots with outcome := none }
        pc := .idle
        log := .took w.dispatches w.slots.outcome (take crates w.kind w.slots).1 :: w.log }
  | abort (hpc : w.pc = .idle) : Step crates w .abort { w with aborted := true }

section
variable {crates : Crates} {w w' : Worker J}

theorem startDrain_cases (h : w.startDrain = some w') :
    w' = { w with
      deadline := w.wallClock.map fun budget => w.now + budget
      pc := .jobs maxJobsPerDrain
      log := .draining w.now :: w.log } := by
  unfold startDrain at h
  cases hw : w.wallClock with
  | none =>
    rw [hw] at h
    exact (Option.some.inj h).symm
  | some budget =>
    rw [hw] at h
    obtain ⟨deadline, hd, h⟩ := Option.map_eq_some_iff.mp h
    rw [← h, addDuration_eq hd]
    rfl

theorem native_cases {c : Cont J} {g : Guest J} (hpc : w.pc = .eval c)
    (h : w.native crates g = some w') : Step crates w (.guest g) w' := by
  cases g with
  | enqueue work =>
    cases h
    exact .enqueue work c hpc
  | respondId id =>
    by_cases hid : id.intoI64 = w.slots.dispatch
    · rw [native, if_pos (by simpa [HostSlots.nativeRespondId] using hid)] at h
      cases h
      exact .respondMatch id c hpc hid
    · rw [native, if_neg (by simpa [HostSlots.nativeRespondId] using hid)] at h
      cases h
      exact .respondOther id c hpc hid
  | respondPayload payload =>
    unfold native at h
    cases hf : w.frames with
    | nil => simp only [hf, reduceCtorEq] at h
    | cons id frames =>
      simp only [hf, Option.some.injEq] at h
      subst h
      exact .respondPayload payload id frames c hpc hf
  | respondThrows =>
    unfold native at h
    cases hf : w.frames with
    | nil => simp only [hf, reduceCtorEq] at h
    | cons id frames =>
      simp only [hf, Option.some.injEq] at h
      subst h
      exact .respondThrows id frames c hpc hf
  | timerStart handle delay repeating =>
    obtain ⟨slots, hs, rfl⟩ := Option.map_eq_some_iff.mp h
    obtain ⟨d, hd, hs⟩ := Option.bind_eq_some_iff.mp hs
    obtain ⟨due, hdue, rfl⟩ := Option.map_eq_some_iff.mp hs
    exact .timerStart handle delay repeating d due c hpc hd hdue
  | timerClear handle =>
    cases h
    exact .timerClear handle c hpc
  | binding id kind name params =>
    cases h
    have hstep : Step crates w _ _ := .binding id kind name params _ c hpc rfl
    simpa [HostSlots.nativeBinding] using hstep

theorem evalOver_cases {c : Cont J} {thrown : Option Text} (hpc : w.pc = .eval c)
    (hf : w.frames = []) (h : w.evalOver thrown c = some w') :
    Step crates w (.evalOver thrown) w' := by
  cases c with
  | startup =>
    cases thrown with
    | none =>
      rw [startDrain_cases h]
      exact .drain .startup _ hpc hf (.inl rfl) rfl
    | some message =>
      cases h
      exact .startupThrew message hpc hf
  | dispatcher =>
    cases thrown with
    | none =>
      rw [startDrain_cases h]
      exact .drain .dispatcher _ hpc hf (.inr rfl) rfl
    | some message =>
      cases h
      exact .dispatcherThrew message hpc hf
  | job left work =>
    cases h
    exact .jobOver thrown left work hpc hf
  | settle id answer =>
    cases h
    exact .callbackOver thrown _ hpc hf (.inl ⟨id, answer, rfl⟩)
  | timer handle =>
    cases h
    exact .callbackOver thrown _ hpc hf (.inr ⟨handle, rfl⟩)

theorem drainJobs_cases {left : Nat} {finished : Bool} (hpc : w.pc = .jobs left) :
    Step crates w (.drainJobs finished) (w.drainJobs finished left) := by
  unfold drainJobs
  cases hj : w.jobs with
  | nil =>
    have hstep : Step crates w _ _ := .noJobs finished left hpc hj
    simpa only [hj] using hstep
  | cons job jobs =>
    cases left with
    | zero => exact .jobCap finished hpc (by simp [hj])
    | succ left =>
      cases finished with
      | true => exact .runJob left job jobs hpc hj
      | false => exact .putBack left job jobs hpc hj

theorem popBinding_cases {reply : Option Reply} (hpc : w.pc = .bindings)
    (h : w.popBinding crates reply = some w') : Step crates w (.popBinding reply) w' := by
  unfold popBinding HostSlots.popBinding at h
  rcases List.eq_nil_or_concat w.slots.bindings with hb | ⟨rest, p, hb⟩
  · simp only [hb, List.getLast?_nil, Option.map_none, Option.some.injEq] at h
    subst h
    exact .noBindings reply hpc hb
  · rw [List.concat_eq_append] at hb
    simp only [hb, List.getLast?_concat, Option.map_some, List.dropLast_concat] at h
    cases ha : p.answer.poll crates reply with
    | some answer =>
      simp only [ha, Option.some.injEq] at h
      subst h
      exact .ready reply rest p answer _ hpc hb ha rfl
    | none =>
      cases reply with
      | some r => simp only [ha, reduceCtorEq] at h
      | none =>
        simp only [ha, Option.some.injEq] at h
        subst h
        exact .await rest p _ hpc hb ha rfl

theorem nextTimer_cases (hpc : w.pc = .timers) (h : w.nextTimer = some w') :
    Step crates w .nextTimer w' := by
  unfold nextTimer HostSlots.nextTimer at h
  cases ht : firstDue w.slots.timers with
  | none =>
    simp only [ht, Option.some.injEq] at h
    subst h
    exact .noTimers hpc (firstDue_eq_none.mp ht)
  | some split =>
    obtain ⟨pre, t, post⟩ := split
    cases hn : rearm t with
    | none => simp only [ht, hn, Option.map_none, reduceCtorEq] at h
    | some next =>
      simp only [ht, hn, Option.map_some] at h
      by_cases hover : w.deadline.any (· < t.due) = true
      · rw [if_pos hover, Option.some.injEq] at h
        subst h
        obtain ⟨deadline, hd, hlt⟩ := (Option.any_eq_true _ _).mp hover
        exact .overran pre t post next deadline hpc ht hn hd (of_decide_eq_true hlt)
      · have hd : ∀ deadline, w.deadline = some deadline → t.due ≤ deadline := by
          intro deadline hd
          simpa [hd] using hover
        rw [if_neg hover] at h
        by_cases hle : w.now ≤ t.due
        · rw [if_pos hle, Option.some.injEq] at h
          subst h
          exact .sleep pre t post next hpc ht hn hd hle
        · rw [if_neg hle, Option.some.injEq] at h
          subst h
          exact .fireLate pre t post next hpc ht hn hd (Nat.lt_of_not_le hle)

theorem exec_cases {event : Event} (hpc : w.pc = .idle) :
    Step crates w (.exec event) (w.exec event) := by
  unfold exec
  by_cases ha : w.aborted = true
  · rw [if_pos ha]
    exact .refuse event _ hpc
  · rw [if_neg ha]
    have ha : w.aborted = false := by simpa using ha
    cases event with
    | fetch init =>
      cases init with
      | none => exact .refuse _ _ hpc
      | some req =>
        dsimp only
        cases req.body with
        | none => exact .dispatch _ .fetch hpc ha rfl
        | bytes b => exact .dispatch _ .fetch hpc ha rfl
        | stream => exact .refuse _ _ hpc
    | task init =>
      cases init with
      | none => exact .refuse _ _ hpc
      | some init => exact .dispatch _ .task hpc ha rfl

theorem take_slots (kind : Kind) (slots : HostSlots) :
    (take crates kind slots).2 = { slots with outcome := none } := by
  cases kind <;> rfl

theorem finish_cases {r : Except TerminationReason Unit} (hpc : w.pc = .ended r) :
    Step crates w .finish (w.finish crates r) := by
  cases r with
  | error reason =>
    cases hk : w.kind with
    | build => simpa only [finish, hk] using Step.buildFailed reason hpc hk
    | fetch => simpa only [finish, hk] using Step.failed reason hpc (by simp [hk])
    | task => simpa only [finish, hk] using Step.failed reason hpc (by simp [hk])
  | ok u =>
    cases hk : w.kind with
    | build => simpa only [finish, hk] using Step.built hpc hk
    | fetch =>
      have hstep : Step crates w _ _ := .took hpc (by simp [hk])
      simpa only [finish, hk, take_slots] using hstep
    | task =>
      have hstep : Step crates w _ _ := .took hpc (by simp [hk])
      simpa only [finish, hk, take_slots] using hstep

theorem step_cases {a : Act J} (h : step crates w a = some w') : Step crates w a w' := by
  cases a with
  | tick d =>
    cases h
    exact .tick d
  | guest g =>
    cases hpc : w.pc with
    | eval c => exact native_cases hpc (by simpa only [step, hpc] using h)
    | _ => simp only [step, hpc, reduceCtorEq] at h
  | evalOver thrown =>
    cases hpc : w.pc with
    | eval c =>
      cases hf : w.frames with
      | nil => exact evalOver_cases hpc hf (by simpa only [step, hpc, hf] using h)
      | cons id frames => simp only [step, hpc, hf, reduceCtorEq] at h
    | _ => simp only [step, hpc, reduceCtorEq] at h
  | drainJobs finished =>
    cases hpc : w.pc with
    | jobs left =>
      simp only [step, hpc, Option.some.injEq] at h
      exact h ▸ drainJobs_cases hpc
    | _ => simp only [step, hpc, reduceCtorEq] at h
  | popBinding reply =>
    cases hpc : w.pc with
    | bindings => exact popBinding_cases hpc (by simpa only [step, hpc] using h)
    | _ => simp only [step, hpc, reduceCtorEq] at h
  | answered reply =>
    cases hpc : w.pc with
    | awaiting p =>
      simp only [step, hpc] at h
      obtain ⟨answer, ha, rfl⟩ := Option.map_eq_some_iff.mp h
      exact .answered reply p answer hpc ha
    | _ => simp only [step, hpc, reduceCtorEq] at h
  | elapsed =>
    cases hpc : w.pc with
    | awaiting p =>
      simp only [step, hpc] at h
      by_cases hd : w.deadline.any (· ≤ w.now) = true
      · rw [if_pos hd, Option.some.injEq] at h
        subst h
        obtain ⟨deadline, hd, hle⟩ := (Option.any_eq_true _ _).mp hd
        exact .elapsed p deadline hpc hd (of_decide_eq_true hle)
      · rw [if_neg hd] at h
        cases h
    | _ => simp only [step, hpc, reduceCtorEq] at h
  | nextTimer =>
    cases hpc : w.pc with
    | timers => exact nextTimer_cases hpc (by simpa only [step, hpc] using h)
    | _ => simp only [step, hpc, reduceCtorEq] at h
  | wake =>
    cases hpc : w.pc with
    | sleeping t =>
      simp only [step, hpc] at h
      by_cases hle : t.due ≤ w.now
      · rw [if_pos hle, Option.some.injEq] at h
        subst h
        exact .wake t hpc hle
      · rw [if_neg hle] at h
        cases h
    | _ => simp only [step, hpc, reduceCtorEq] at h
  | exec event =>
    cases hpc : w.pc with
    | idle =>
      simp only [step, hpc, Option.some.injEq] at h
      exact h ▸ exec_cases hpc
    | _ => simp only [step, hpc, reduceCtorEq] at h
  | finish =>
    cases hpc : w.pc with
    | ended r =>
      simp only [step, hpc, Option.some.injEq] at h
      exact h ▸ finish_cases hpc
    | _ => simp only [step, hpc, reduceCtorEq] at h
  | abort =>
    cases hpc : w.pc with
    | idle =>
      simp only [step, hpc, Option.some.injEq] at h
      rw [← h, ← hpc]
      exact .abort hpc
    | _ => simp only [step, hpc, reduceCtorEq] at h

/-! ## what holds in every state -/

def Reached (crates : Crates) (w : Worker J) : Prop :=
  ∃ ops maxWallClockTimeMs now acts,
    run (step crates) (build ops maxWallClockTimeMs now) acts = some w

theorem Reached.inv {P : Worker J → Prop} (h : Reached crates w)
    (hbuild : ∀ ops ms now, P (build ops ms now))
    (hstep : ∀ w a w', P w → step crates w a = some w' → P w') : P w := by
  obtain ⟨ops, ms, now, acts, h⟩ := h
  exact run_inv (step crates) hstep (hbuild ops ms now) h

/-- what the points of the control flow say about the rest of the state -/
structure Coherent (w : Worker J) : Prop where
  slot : w.slots.dispatch = w.dispatches
  frames : ∀ id ∈ w.frames, id = w.dispatches
  calm : (∀ c, w.pc ≠ .eval c) → w.frames = []
  startup : w.pc = .eval .startup → w.kind = .build
  dispatcher : w.pc = .eval .dispatcher → w.kind ≠ .build
  dead : w.pc = .dead → w.kind = .build

theorem step_slot {a : Act J} (hw : w.slots.dispatch = w.dispatches)
    (h : step crates w a = some w') : w'.slots.dispatch = w'.dispatches := by
  cases step_cases h with
  | dispatch => rfl
  | _ => exact hw

theorem step_calm {a : Act J} (hw : (∀ c, w.pc ≠ .eval c) → w.frames = [])
    (h : step crates w a = some w') : (∀ c, w'.pc ≠ .eval c) → w'.frames = [] := by
  have hcalm : ∀ {pc}, w.pc = pc → (∀ c, pc ≠ .eval c) → w.frames = [] := by
    rintro _ rfl
    exact hw
  cases step_cases h with
  | tick => exact hw
  | enqueue _ c hpc | respondOther _ c hpc | respondMatch _ c hpc | respondPayload _ _ _ c hpc
  | respondThrows _ _ c hpc | timerStart _ _ _ _ _ c hpc | timerClear _ c hpc
  | binding _ _ _ _ _ c hpc => exact fun hne => absurd hpc (hne c)
  | drain _ _ _ hf | startupThrew _ _ hf | dispatcherThrew _ _ hf | jobOver _ _ _ _ hf
  | callbackOver _ _ _ hf => exact fun _ => hf
  | noJobs _ _ hpc | jobCap _ hpc | runJob _ _ _ hpc | putBack _ _ _ hpc | noBindings _ hpc
  | ready _ _ _ _ _ hpc | await _ _ _ hpc | answered _ _ _ hpc | elapsed _ _ hpc | noTimers hpc
  | overran _ _ _ _ _ hpc | sleep _ _ _ _ hpc | fireLate _ _ _ _ hpc | wake _ hpc
  | refuse _ _ hpc | dispatch _ _ hpc | buildFailed _ hpc | built hpc | failed _ hpc | took hpc
  | abort hpc => exact fun _ => hcalm hpc (by simp)

theorem step_frames {a : Act J} (hw : Coherent w) (h : step crates w a = some w') :
    ∀ id ∈ w'.frames, id = w'.dispatches := by
  have hfs := hw.frames
  cases step_cases h with
  | respondMatch id c hpc hid =>
    intro x hx
    rcases List.mem_cons.mp hx with rfl | hx
    · rw [hid, hw.slot]
    · exact hfs x hx
  | respondPayload payload id frames c hpc hf =>
    exact fun x hx => hfs x (hf ▸ List.mem_cons_of_mem _ hx)
  | respondThrows id frames c hpc hf =>
    exact fun x hx => hfs x (hf ▸ List.mem_cons_of_mem _ hx)
  | dispatch event kind hpc =>
    have hf : w.frames = [] := hw.calm (by simp [hpc])
    simp [hf]
  | _ => exact hfs

theorem step_startup {a : Act J} (hw : w.pc = .eval .startup → w.kind = .build)
    (h : step crates w a = some w') : w'.pc = .eval .startup → w'.kind = .build := by
  cases step_cases h with
  | tick | enqueue | respondOther | respondMatch | respondPayload | respondThrows | timerStart
  | timerClear | binding | refuse | abort => exact hw
  | _ =>
    intro hpc
    cases hpc

theorem step_dispatcher {a : Act J} (hw : w.pc = .eval .dispatcher → w.kind ≠ .build)
    (h : step crates w a = some w') : w'.pc = .eval .dispatcher → w'.kind ≠ .build := by
  cases step_cases h with
  | tick | enqueue | respondOther | respondMatch | respondPayload | respondThrows | timerStart
  | timerClear | binding | refuse | abort => exact hw
  | dispatch event kind hpc ha hk => exact fun _ => hk ▸ event.kind_ne_build
  | _ =>
    intro hpc
    cases hpc

theorem step_dead {a : Act J} (hw : Coherent w) (h : step crates w a = some w') :
    w'.pc = .dead → w'.kind = .build := by
  cases step_cases h with
  | tick | enqueue | respondOther | respondMatch | respondPayload | respondThrows | timerStart
  | timerClear | binding | refuse | abort => exact hw.dead
  | startupThrew message hpc => exact fun _ => hw.startup hpc
  | buildFailed reason hpc hk => exact fun _ => hk
  | _ =>
    intro hpc
    cases hpc

theorem Coherent.step {a : Act J} (hw : Coherent w) (h : step crates w a = some w') :
    Coherent w' :=
  ⟨step_slot hw.slot h, step_frames hw h, step_calm hw.calm h, step_startup hw.startup h,
    step_dispatcher hw.dispatcher h, step_dead hw h⟩

theorem Coherent.build (ops : Bool) (ms now : Nat) : Coherent (build ops ms now : Worker J) where
  slot := rfl
  frames := by simp [Worker.build]
  calm := fun _ => rfl
  startup := fun _ => rfl
  dispatcher := by simp [Worker.build]
  dead := by simp [Worker.build]

/-! ## what is empty at which point -/

def HoldsNothing (w : Worker J) : Prop :=
  w.jobs = [] ∧ w.slots.timers = [] ∧ w.slots.bindings = []

instance (w : Worker J) : Decidable w.HoldsNothing := inferInstanceAs (Decidable (_ ∧ _ ∧ _))

/-- `drain` looks at its queues one after the other, and nothing is queued meanwhile -/
def Drained (w : Worker J) : Prop :=
  match w.pc with
  | .bindings | .awaiting _ => w.jobs = []
  | .timers | .sleeping _ => w.jobs = [] ∧ w.slots.bindings = []
  | .ended (.ok ()) => w.HoldsNothing
  | _ => True

theorem step_drained {a : Act J} (hw : Drained w) (h : step crates w a = some w') :
    Drained w' := by
  cases step_cases h with
  | tick => exact hw
  | enqueue _ _ hpc | respondOther _ _ hpc | respondMatch _ _ hpc | respondPayload _ _ _ _ hpc
  | respondThrows _ _ _ hpc | timerStart _ _ _ _ _ _ hpc | timerClear _ _ hpc
  | binding _ _ _ _ _ _ hpc | refuse _ _ hpc | abort hpc => simp [Drained, hpc]
  | noJobs finished left hpc hj => exact hj
  | noBindings reply hpc hb =>
    rw [Drained, hpc] at hw
    exact ⟨hw, hb⟩
  | await rest p log hpc =>
    rw [Drained, hpc] at hw
    exact hw
  | noTimers hpc ht =>
    rw [Drained, hpc] at hw
    exact ⟨hw.1, ht, hw.2⟩
  | sleep pre t post next hpc =>
    rw [Drained, hpc] at hw
    exact hw
  | _ => trivial

theorem Drained.build (ops : Bool) (ms now : Nat) : Drained (build ops ms now : Worker J) := trivial

end

end Worker

end NovaRuntime
