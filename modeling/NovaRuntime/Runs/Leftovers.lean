import NovaRuntime.Host.Step

/-!
# What a dispatch leaves behind

A drain has five ends, and each empties some of the three queues.  `sweeps` is the condition under
which the queues that an end does not empty are empty already; a run whose steps all meet it, and
no other, never lets a job, a timer or a binding call into the next dispatch.

* `OwnWork`        what ran belonged to the dispatch in flight;
* `Tidy`           both, whenever a dispatch is over;
* `sweeps`         the condition on one step.
-/

namespace NovaRuntime
open Lib

/-- the job, timer or call in this entry was made during the dispatch it met -/
def OwnWork : Obs → Prop
  | .ranJob origin n => origin = n
  | .settled p _ n _ _ => p.origin = n
  | .fired t n _ _ | .overran t n => t.origin = n
  | _ => True

instance : DecidablePred OwnWork
  | .ranJob origin n => inferInstanceAs (Decidable (origin = n))
  | .settled p _ n _ _ => inferInstanceAs (Decidable (p.origin = n))
  | .fired t n _ _ | .overran t n => inferInstanceAs (Decidable (t.origin = n))
  | .began _ | .responded _ _ | .called _ _ | .invoked _ | .draining _ | .drained _ _ | .took _ _ _
  | .failed _ _ | .refused _ => inferInstanceAs (Decidable True)

namespace Worker
variable {J : Type} {crates : Crates} {w w' : Worker J}

/-- no dispatch is in flight, or its drain has ended -/
def Over (w : Worker J) : Prop :=
  match w.pc with
  | .idle => True
  | .ended _ => w.kind ≠ .build
  | _ => False

/-- Nothing is left when a dispatch is over, and nothing of one ran during another. -/
structure Tidy (w : Worker J) : Prop where
  clean : w.Over → w.HoldsNothing
  own : ∀ e ∈ w.log, OwnWork e

/-- The queues that the end of a drain does not empty are empty: the timers and the calls at the
job cap and at the timeout of a call, all three where the dispatch script throws. -/
def sweeps (w : Worker J) : Act J → Bool
  | .drainJobs _ =>
    match w.pc with
    | .jobs 0 => w.kind = .build ∨ w.jobs = [] ∨ w.slots.timers = [] ∧ w.slots.bindings = []
    | _ => true
  | .elapsed => w.kind = .build ∨ w.slots.timers = [] ∧ w.slots.bindings = []
  | .evalOver (some _) =>
    match w.pc with
    | .eval .dispatcher => w.HoldsNothing
    | _ => true
  | _ => true

/-! ## what is empty at which point -/

/-- everything queued, awaited or about to fire was made during the dispatch in flight -/
structure Current (w : Worker J) : Prop where
  jobs : ∀ job ∈ w.jobs, job.origin = w.dispatches
  timers : ∀ t ∈ w.slots.timers, t.origin = w.dispatches
  bindings : ∀ p ∈ w.slots.bindings, p.origin = w.dispatches
  awaited : ∀ p, w.pc = .awaiting p → p.origin = w.dispatches
  asleep : ∀ t, w.pc = .sleeping t → t.origin = w.dispatches

structure Sorted (w : Worker J) : Prop where
  coherent : Coherent w
  drained : Drained w
  current : Current w

theorem origin_of_nextTimer {n : Int} {pre post next : List Timer} {t : Timer}
    {ts : List Timer} (hts : ∀ t ∈ ts, t.origin = n) (ht : firstDue ts = some (pre, t, post))
    (hn : rearm t = some next) :
    t.origin = n ∧ ∀ u ∈ pre ++ next ++ post, u.origin = n := by
  rw [(firstDue_spec ht).1] at hts
  have ht : t.origin = n := hts t (by simp)
  refine ⟨ht, fun u hu => ?_⟩
  rcases List.mem_append.mp hu with hu | hu
  · rcases List.mem_append.mp hu with hu | hu
    · exact hts u (by simp [hu])
    · rcases rearm_cases hn with ⟨-, rfl⟩ | ⟨period, -, rfl⟩
      · cases hu
      · rw [List.mem_singleton.mp hu]
        exact ht
  · exact hts u (by simp [hu])

/-- Nothing is carried into a dispatch that begins when the last one left nothing. -/
theorem step_current {a : Act J} (hw : Current w) (ht : Tidy w)
    (h : step crates w a = some w') : Current w' := by
  obtain ⟨hjobs, htimers, hbindings, hawaited, hasleep⟩ := hw
  cases step_cases h with
  | tick => exact ⟨hjobs, htimers, hbindings, hawaited, hasleep⟩
  | enqueue work c hpc =>
    refine ⟨fun job hj => ?_, htimers, hbindings, hawaited, hasleep⟩
    rcases List.mem_append.mp hj with hj | hj
    · exact hjobs job hj
    · rw [List.mem_singleton.mp hj]
  | respondOther | respondMatch | respondPayload | respondThrows | refuse | abort =>
    exact ⟨hjobs, htimers, hbindings, hawaited, hasleep⟩
  | timerStart handle delay repeating d due =>
    refine ⟨hjobs, fun t ht => ?_, hbindings, hawaited, hasleep⟩
    rcases List.mem_append.mp ht with ht | ht
    · exact htimers t ht
    · rw [List.mem_singleton.mp ht]
  | timerClear =>
    exact ⟨hjobs, fun t ht => htimers t (List.mem_of_mem_filter ht), hbindings, hawaited, hasleep⟩
  | binding id kind name params answer =>
    refine ⟨hjobs, htimers, fun p hp => ?_, hawaited, hasleep⟩
    rcases List.mem_append.mp hp with hp | hp
    · exact hbindings p hp
    · rw [List.mem_singleton.mp hp]
  | runJob left job jobs hpc hj =>
    exact ⟨fun job' hj' => hjobs job' (hj ▸ List.mem_cons_of_mem _ hj'), htimers, hbindings,
      by simp, by simp⟩
  | putBack left job jobs hpc hj =>
    refine ⟨fun job' hj' => hjobs job' ?_, htimers, hbindings, by simp, by simp⟩
    rw [hj]
    rcases List.mem_append.mp hj' with hj' | hj'
    · exact List.mem_cons_of_mem _ hj'
    · rw [List.mem_singleton.mp hj']
      exact List.mem_cons_self
  | jobCap => exact ⟨by simp, htimers, hbindings, by simp, by simp⟩
  | ready reply rest p answer log hpc hb =>
    exact ⟨hjobs, htimers, fun p' hp' => hbindings p' (by simp [hb, hp']), by simp, by simp⟩
  | await rest p log hpc hb =>
    refine ⟨hjobs, htimers, fun p' hp' => hbindings p' (by simp [hb, hp']), fun p' hp' => ?_,
      by simp⟩
    cases hp'
    exact hbindings p (by simp [hb])
  | overran => exact ⟨hjobs, by simp, hbindings, by simp, by simp⟩
  | sleep pre t post next hpc hts hn =>
    obtain ⟨horigin, htimers⟩ := origin_of_nextTimer htimers hts hn
    refine ⟨hjobs, htimers, hbindings, by simp, fun u hu => ?_⟩
    cases hu
    exact horigin
  | fireLate pre t post next hpc hts hn =>
    exact ⟨hjobs, (origin_of_nextTimer htimers hts hn).2, hbindings, by simp, by simp⟩
  | dispatch event kind hpc =>
    obtain ⟨hj, hti, hb⟩ := ht.clean (by simp [Over, hpc])
    exact ⟨by simp [hj], by simp [hti], by simp [hb], by simp, by simp⟩
  | _ => exact ⟨hjobs, htimers, hbindings, by simp, by simp⟩

/-! ## the ends of a drain -/

theorem step_own {a : Act J} (hw : Current w) (ht : ∀ e ∈ w.log, OwnWork e)
    (h : step crates w a = some w') : ∀ e ∈ w'.log, OwnWork e := by
  have hcons : ∀ e, OwnWork e → ∀ e' ∈ e :: w.log, OwnWork e' := by
    intro e he e' he'
    rcases List.mem_cons.mp he' with rfl | he'
    · exact he
    · exact ht e' he'
  have hpolled : ∀ (p : Pending) log, (log = if p.answer.asks then .invoked p.call :: w.log
      else w.log) → ∀ e ∈ log, OwnWork e := by
    rintro p log rfl
    split
    · exact hcons _ trivial
    · exact ht
  cases step_cases h with
  | tick | enqueue | respondMatch | respondThrows | timerStart | timerClear | dispatcherThrew
  | jobOver | callbackOver | noJobs | putBack | noBindings | sleep | built
  | abort => exact ht
  | respondOther | respondPayload | binding | drain | startupThrew | jobCap | elapsed | noTimers
  | refuse | dispatch | buildFailed | failed | took => exact hcons _ trivial
  | runJob left job jobs hpc hj => exact hcons _ (hw.jobs job (by simp [hj]))
  | ready reply rest p answer log hpc hb ha hlog =>
    intro e he
    rcases List.mem_cons.mp he with rfl | he
    · exact hw.bindings p (by simp [hb])
    · exact hpolled p log hlog e he
  | await rest p log hpc hb ha hlog => exact hpolled p log hlog
  | answered reply p answer hpc => exact hcons _ (hw.awaited p hpc)
  | overran pre t post next deadline hpc hts hn =>
    intro e he
    rcases List.mem_cons.mp he with rfl | he
    · trivial
    · exact hcons (.overran t _) (origin_of_nextTimer hw.timers hts hn).1 e he
  | fireLate pre t post next hpc hts hn =>
    exact hcons (.fired t _ _ _) (origin_of_nextTimer hw.timers hts hn).1
  | wake t hpc => exact hcons _ (hw.asleep t hpc)

/-- A step leaves the queues empty where a dispatch is over exactly when `sweeps` allows it. -/
theorem step_over_iff {a : Act J} (hw : Sorted w) (ht : w.Over → w.HoldsNothing)
    (h : step crates w a = some w') :
    (w'.Over → w'.HoldsNothing) ↔ sweeps w a = true := by
  cases step_cases h with
  | tick => exact iff_of_true ht rfl
  | enqueue _ _ hpc | respondOther _ _ hpc | respondMatch _ _ hpc | respondPayload _ _ _ _ hpc
  | respondThrows _ _ _ hpc | timerStart _ _ _ _ _ _ hpc | timerClear _ _ hpc
  | binding _ _ _ _ _ _ hpc => simp [Over, hpc, sweeps]
  | refuse _ _ hpc | abort hpc => exact iff_of_true (fun _ => ht (by simp [Over, hpc])) rfl
  | jobOver thrown left work hpc => cases thrown <;> simp [Over, sweeps, hpc]
  | callbackOver thrown c hpc hf hc =>
    cases thrown <;> rcases hc with ⟨_, _, rfl⟩ | ⟨_, rfl⟩ <;> simp [Over, sweeps, hpc]
  | startupThrew message hpc => simp [Over, sweeps, hpc]
  | dispatcherThrew message hpc =>
    have hk := hw.coherent.dispatcher hpc
    simp only [Over, sweeps, hpc, decide_eq_true_eq]
    exact ⟨fun hov => hov hk, fun hempty _ => hempty⟩
  | noJobs finished left hpc hj =>
    cases left <;> simp [Over, sweeps, hpc, hj]
  | jobCap finished hpc hj =>
    simp only [Over, sweeps, hpc, HoldsNothing, decide_eq_true_eq, true_and]
    tauto
  | runJob left job jobs hpc | putBack left job jobs hpc => simp [Over, sweeps, hpc]
  | drain | noBindings | ready | await | answered | sleep | fireLate | wake | dispatch =>
    exact iff_of_true (fun hov => hov.elim) rfl
  | elapsed p deadline hpc =>
    have hj : w.jobs = [] := by
      have hd := hw.drained
      rwa [Drained, hpc] at hd
    simp only [Over, sweeps, HoldsNothing, decide_eq_true_eq, hj, true_and]
    tauto
  | noTimers hpc hts =>
    have hd := hw.drained
    rw [Drained, hpc] at hd
    exact iff_of_true (fun _ => ⟨hd.1, hts, hd.2⟩) rfl
  | overran pre t post next deadline hpc =>
    have hd := hw.drained
    rw [Drained, hpc] at hd
    exact iff_of_true (fun _ => ⟨hd.1, rfl, hd.2⟩) rfl
  | buildFailed => exact iff_of_true (fun hov => hov.elim) rfl
  | built hpc | took hpc =>
    have hd := hw.drained
    rw [Drained, hpc] at hd
    exact iff_of_true (fun _ => hd) rfl
  | failed reason hpc hk =>
    exact iff_of_true (fun _ => ht (by simp [Over, hpc, hk])) rfl

theorem Sorted.step {a : Act J} (hw : Sorted w) (ht : Tidy w) (h : step crates w a = some w') :
    Sorted w' :=
  ⟨hw.coherent.step h, step_drained hw.drained h, step_current hw.current ht h⟩

theorem Sorted.build (ops : Bool) (ms now : Nat) : Sorted (build ops ms now : Worker J) where
  coherent := Coherent.build ops ms now
  drained := Drained.build ops ms now
  current := by constructor <;> simp [Worker.build, HostSlots.default]

theorem step_tidy_iff {a : Act J} (hw : Sorted w) (ht : Tidy w) (h : step crates w a = some w') :
    Tidy w' ↔ sweeps w a = true := by
  rw [← step_over_iff hw ht.clean h]
  exact ⟨fun ht' => ht'.clean, fun hov => ⟨hov, step_own hw.current ht.own h⟩⟩

/-- In every state of a run the queues are empty where a dispatch is over, and what ran belonged to
the dispatch in flight, exactly when all steps of the run meet `sweeps`. -/
theorem nothing_outlives_its_dispatch {ops : Bool} {ms now : Nat} {acts : List (Act J)}
    (h : run (step crates) (Worker.build ops ms now) acts = some w) :
    Always (step crates) Tidy (Worker.build ops ms now) acts ↔
      Meets (step crates) (fun w a => sweeps w a = true) (Worker.build ops ms now) acts :=
  always_iff_meets (step crates) (I := Sorted) (P := Tidy)
    (fun _ _ _ hw ht hs => hw.step ht hs) (fun _ _ _ hw ht hs => step_tidy_iff hw ht hs)
    (Sorted.build ops ms now) ⟨fun hov => hov.elim, by simp [Worker.build]⟩ h

/-- a dispatch whose timer is cleared by the drain that it outlasts, and one after it -/
theorem nothing_outlives_its_dispatch_timeout :
    Always (step Crates.bare) Tidy (Worker.build true 1 0 : Worker Unit)
      [.evalOver none, .drainJobs true, .popBinding none, .nextTimer, .finish,
        .exec (.task (some ⟨[], none, .null, none, 0⟩)), .tick 2000000,
        .guest (.timerStart (.ofNat 1) .nan true), .evalOver none, .drainJobs true,
        .popBinding none, .tick 3000000, .nextTimer, .evalOver none, .drainJobs true,
        .popBinding none, .nextTimer, .evalOver none, .drainJobs true, .popBinding none,
        .nextTimer, .finish, .exec (.fetch none)] := by
  refine (nothing_outlives_its_dispatch (Option.some_get ?_).symm).mpr ?_
  · decide +kernel
  · decide +kernel

/-- Dispatch 1 sets an interval and awaits a query past the wall clock.  The interval fires during
dispatch 2. -/
theorem an_interval_outlives_its_dispatch :
    ¬ ∀ w : Worker Unit, Reached Crates.bare w → Tidy w := by
  intro hall
  obtain ⟨w, hrun, hlog⟩ := (Option.any_eq_true _ _).mp (show (run (step Crates.bare)
      (Worker.build true 1 0 : Worker Unit)
      [.evalOver none, .drainJobs true, .popBinding none, .nextTimer, .finish,
        .exec (.task (some ⟨[], none, .null, none, 0⟩)),
        .guest (.timerStart (.ofNat 1) .nan true),
        .guest (.binding (.ofNat 1) (txt "query") (txt "DB") (txt "\x7b\"sql\":\"x\"\x7d")),
        .evalOver none, .drainJobs true, .popBinding none, .tick 1000000, .elapsed, .finish,
        .exec (.task (some ⟨[], none, .null, none, 0⟩)), .evalOver none, .drainJobs true,
        .popBinding none, .nextTimer]).any
      (fun w => ¬ ∀ e ∈ w.log, OwnWork e) = true by decide +kernel)
  exact of_decide_eq_true hlog (hall w ⟨true, 1, 0, _, hrun⟩).own

end Worker

end NovaRuntime
