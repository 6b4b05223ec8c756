import NovaRuntime.Host.Step

/-!
# The wall clock bounds the waiting of a drain

A drain never waits past its deadline: it sleeps only for timers due by then, and an answer it has
to wait for comes by then or not at all.  Past the deadline it still hands over answers that are
ready at once and fires timers that were due before.

* `prompt`      the clock and the runtime: a sleep ends when the timer is due, a timeout when its
                budget is spent;
* `OnTime`      nothing settles or fires after the deadline;
* `InBudget`    nothing that was waited for does;
* `Bounded`     what holds in every state of a run.
-/

namespace NovaRuntime
open Lib

/-- when the last drain began -/
def drainStart : List Obs → Option Nat
  | [] => none
  | .draining now :: _ => some now
  | _ :: log => drainStart log

/-- an answer is settled, or a timer fires, no later than `budget` after the drain began -/
def OnTime (budget : Nat) : Obs → List Obs → Prop
  | .settled _ _ _ now _, earlier | .fired _ _ now _, earlier =>
    ∃ start, drainStart earlier = some start ∧ now ≤ start + budget
  | _, _ => True

/-- An answer that was waited for is settled in time.  A timer fires in time if the drain slept
for it, and was due in time if it did not. -/
def InBudget (budget : Nat) : Obs → List Obs → Prop
  | .settled _ _ _ now waited, earlier =>
    ∃ start, drainStart earlier = some start ∧ (waited = true → now ≤ start + budget)
  | .fired t _ now waited, earlier =>
    ∃ start, drainStart earlier = some start ∧ t.due ≤ start + budget ∧ (waited = true → now = t.due)
  | _, _ => True

namespace Worker
variable {J : Type} {crates : Crates} {w w' : Worker J} {budget : Nat}

/-- A sleep ends at the requested moment and a timeout at its budget; a future whose budget was
spent when it was first polled is not polled again. -/
def prompt (w : Worker J) : Act J → Bool
  | .tick d =>
    match w.pc with
    | .sleeping t => w.now + d ≤ t.due
    | .awaiting _ => d = 0 ∨ w.deadline.all (w.now + d ≤ ·)
    | _ => true
  | .answered _ => w.deadline.all (w.now ≤ ·)
  | _ => true

/-- between the beginning of a drain and its end -/
def Draining (w : Worker J) : Prop :=
  match w.pc with
  | .idle | .dead | .eval .startup | .eval .dispatcher | .ended _ => False
  | _ => True

structure Timed (budget : Nat) (w : Worker J) : Prop where
  limit : w.wallClock = some budget
  running : w.Draining → ∃ start, drainStart w.log = some start ∧ w.deadline = some (start + budget)
  asleep : ∀ t, w.pc = .sleeping t → w.now ≤ t.due ∧ ∀ deadline, w.deadline = some deadline →
    t.due ≤ deadline
  log : Logged (InBudget budget) w.log

theorem step_limit {a : Act J} (hw : w.wallClock = some budget) (h : step crates w a = some w') :
    w'.wallClock = some budget := by
  cases step_cases h <;> exact hw

theorem drainStart_polled {p : Pending} {log : List Obs}
    (hlog : log = if p.answer.asks then .invoked p.call :: w.log else w.log) :
    drainStart log = drainStart w.log := by
  rw [hlog]
  split <;> rfl

theorem step_running {a : Act J} (hw : Timed budget w) (h : step crates w a = some w') :
    w'.Draining → ∃ start, drainStart w'.log = some start ∧
      w'.deadline = some (start + budget) := by
  have hrun := hw.running
  cases step_cases h with
  | tick => exact hrun
  | enqueue _ _ hpc | respondOther _ _ hpc | respondMatch _ _ hpc | respondPayload _ _ _ _ hpc
  | respondThrows _ _ _ hpc | timerStart _ _ _ _ _ _ hpc | timerClear _ _ hpc
  | binding _ _ _ _ _ _ hpc => exact hrun
  | refuse _ _ hpc | abort hpc => exact hrun
  | drain c deadline hpc hf hc hd =>
    intro _
    refine ⟨w.now, rfl, ?_⟩
    rw [hw.limit] at hd
    exact hd
  | startupThrew | dispatcherThrew | jobCap | elapsed | noTimers | overran | dispatch
  | buildFailed | built | failed | took => exact fun hdr => hdr.elim
  | callbackOver thrown c hpc hf hc =>
    refine fun _ => hrun ?_
    rcases hc with ⟨_, _, rfl⟩ | ⟨_, rfl⟩ <;> simp [Draining, hpc]
  | jobOver _ _ _ hpc | noJobs _ _ hpc | runJob _ _ _ hpc | putBack _ _ _ hpc | noBindings _ hpc
  | answered _ _ _ hpc | sleep _ _ _ _ hpc | fireLate _ _ _ _ hpc | wake _ hpc =>
    exact fun _ => hrun (by simp [Draining, hpc])
  | ready reply rest p answer log hpc hb ha hlog =>
    intro _
    obtain ⟨start, hstart, hd⟩ := hrun (by simp [Draining, hpc])
    exact ⟨start, (drainStart_polled hlog).trans hstart, hd⟩
  | await rest p log hpc hb ha hlog =>
    intro _
    obtain ⟨start, hstart, hd⟩ := hrun (by simp [Draining, hpc])
    exact ⟨start, (drainStart_polled hlog).trans hstart, hd⟩

theorem step_asleep {a : Act J} (hw : Timed budget w) (hp : prompt w a = true)
    (h : step crates w a = some w') : ∀ t, w'.pc = .sleeping t → w'.now ≤ t.due ∧
      ∀ deadline, w'.deadline = some deadline → t.due ≤ deadline := by
  cases step_cases h with
  | tick d =>
    intro t hpc
    have hpc : w.pc = .sleeping t := hpc
    refine ⟨?_, (hw.asleep t hpc).2⟩
    simpa [prompt, hpc] using hp
  | sleep pre t post next hpc ht hn hd hle =>
    intro u hu
    cases hu
    exact ⟨hle, hd⟩
  | enqueue _ _ hpc | respondOther _ _ hpc | respondMatch _ _ hpc | respondPayload _ _ _ _ hpc
  | respondThrows _ _ _ hpc | timerStart _ _ _ _ _ _ hpc | timerClear _ _ hpc
  | binding _ _ _ _ _ _ hpc | refuse _ _ hpc | abort hpc => simp [hpc]
  | _ => simp

theorem step_budget {a : Act J} (hw : Timed budget w) (hp : prompt w a = true)
    (h : step crates w a = some w') : Logged (InBudget budget) w'.log := by
  have hlog := hw.log
  have hpolled : ∀ (p : Pending) log, (log = if p.answer.asks then .invoked p.call :: w.log
      else w.log) → Logged (InBudget budget) log := by
    rintro p log rfl
    split
    · exact ⟨trivial, hlog⟩
    · exact hlog
  cases step_cases h with
  | tick | enqueue | respondMatch | respondThrows | timerStart | timerClear | dispatcherThrew
  | jobOver | callbackOver | noJobs | putBack | noBindings | sleep | built | abort => exact hlog
  | ready reply rest p answer log hpc hb ha hl =>
    obtain ⟨start, hstart, -⟩ := hw.running (by simp [Draining, hpc])
    exact ⟨⟨start, (drainStart_polled hl).trans hstart, by simp⟩, hpolled p log hl⟩
  | await rest p log hpc hb ha hl => exact hpolled p log hl
  | answered reply p answer hpc =>
    obtain ⟨start, hstart, hd⟩ := hw.running (by simp [Draining, hpc])
    refine ⟨⟨start, hstart, fun _ => ?_⟩, hlog⟩
    simpa [prompt, hd] using hp
  | fireLate pre t post next hpc ht hn hd =>
    obtain ⟨start, hstart, hdl⟩ := hw.running (by simp [Draining, hpc])
    exact ⟨⟨start, hstart, hd _ hdl, by simp⟩, hlog⟩
  | wake t hpc hle =>
    obtain ⟨start, hstart, hdl⟩ := hw.running (by simp [Draining, hpc])
    obtain ⟨hnow, hdue⟩ := hw.asleep t hpc
    exact ⟨⟨start, hstart, hdue _ hdl, fun _ => le_antisymm hnow hle⟩, hlog⟩
  | overran => exact ⟨trivial, trivial, hlog⟩
  | _ => exact ⟨trivial, hlog⟩

theorem Timed.step {a : Act J} (hw : Timed budget w) (hp : prompt w a = true)
    (h : step crates w a = some w') : Timed budget w' :=
  ⟨step_limit hw.limit h, step_running hw h, step_asleep hw hp h, step_budget hw hp h⟩

theorem Timed.build {ms : Nat} (hms : ms ≠ 0) (ops : Bool) (now : Nat) :
    Timed (fromMillis ms) (build ops ms now : Worker J) where
  limit := if_neg hms
  running := fun hdr => hdr.elim
  asleep := by simp [Worker.build]
  log := trivial

/-! ## the ends of a drain past its deadline -/

/-- a drain that waits for an answer when its time is over can only give up -/
theorem awaiting_times_out {a : Act J} {p : Pending} {deadline : Nat} (hpc : w.pc = .awaiting p)
    (hd : w.deadline = some deadline) (hlt : deadline < w.now) (hp : prompt w a = true)
    (h : step crates w a = some w') :
    w' = w ∨ w'.pc = .ended (.error .wallClockTimeout) := by
  cases step_cases h with
  | tick d =>
    have h0 : d = 0 ∨ w.now + d ≤ deadline := by simpa [prompt, hpc, hd] using hp
    rcases h0 with rfl | hle
    · exact .inl rfl
    · omega
  | answered reply p answer =>
    have hle : w.now ≤ deadline := by simpa [prompt, hd] using hp
    omega
  | elapsed => exact .inr rfl
  | _ => simp_all

theorem timer_times_out {pre post : List Timer} {t : Timer} {deadline : Nat}
    (ht : firstDue w.slots.timers = some (pre, t, post))
    (hd : w.deadline = some deadline) (hlt : deadline < t.due)
    (h : step crates w .nextTimer = some w') : w'.pc = .ended (.error .wallClockTimeout) := by
  cases step_cases h with
  | noTimers _ hempty =>
    rw [hempty] at ht
    cases ht
  | overran => rfl
  | sleep pre' t' post' next _ ht' hn hd' | fireLate pre' t' post' next _ ht' hn hd' =>
    rw [ht, Option.some.injEq, Prod.mk.injEq, Prod.mk.injEq] at ht'
    obtain ⟨-, rfl, -⟩ := ht'
    exact absurd (hd' _ hd) (not_le_of_gt hlt)

/-- What was waited for came within the budget, a timer that is slept for is due within it, and a
wait that would go past it ends the drain. -/
structure Bounded (crates : Crates) (budget : Nat) (w : Worker J) : Prop where
  log : Logged (InBudget budget) w.log
  asleep : ∀ t, w.pc = .sleeping t → ∃ start, drainStart w.log = some start ∧ w.now ≤ t.due ∧
    t.due ≤ start + budget
  awaiting : ∀ p start, w.pc = .awaiting p → drainStart w.log = some start →
    start + budget < w.now → ∀ a w', prompt w a = true → step crates w a = some w' →
      w' = w ∨ w'.pc = .ended (.error .wallClockTimeout)
  timers : ∀ pre t post start, w.pc = .timers →
    firstDue w.slots.timers = some (pre, t, post) → drainStart w.log = some start →
    start + budget < t.due → ∀ w', step crates w .nextTimer = some w' →
      w'.pc = .ended (.error .wallClockTimeout)

theorem Timed.bounded (hw : Timed budget w) : Bounded crates budget w where
  log := hw.log
  asleep := by
    intro t hpc
    obtain ⟨start, hstart, hd⟩ := hw.running (by simp [Draining, hpc])
    obtain ⟨hnow, hdue⟩ := hw.asleep t hpc
    exact ⟨start, hstart, hnow, hdue _ hd⟩
  awaiting := by
    intro p start hpc hs hlt a w' hp h
    obtain ⟨start', hstart, hd⟩ := hw.running (by simp [Draining, hpc])
    rw [hstart, Option.some.injEq] at hs
    subst hs
    exact awaiting_times_out hpc hd hlt hp h
  timers := by
    intro pre t post start hpc ht hs hlt w' h
    obtain ⟨start', hstart, hd⟩ := hw.running (by simp [Draining, hpc])
    rw [hstart, Option.some.injEq] at hs
    subst hs
    exact timer_times_out ht hd hlt h

/-- Over every run on a prompt clock, a worker with a wall clock limit waits within it. -/
theorem drain_waits_within_the_budget {ops : Bool} {ms now : Nat} {acts : List (Act J)}
    (hms : ms ≠ 0) (h : run (step crates) (Worker.build ops ms now) acts = some w)
    (hp : Meets (step crates) (fun w a => prompt w a = true) (Worker.build ops ms now) acts) :
    Bounded crates (fromMillis ms) w :=
  Timed.bounded (run_inv_of_meets (step crates) (fun _ _ _ hw hp hs => Timed.step hw hp hs)
    (Timed.build hms ops now) hp h)

/-- a worker with a limit of a millisecond starts a timer, whose callback takes two -/
def slowCallback : List (Act Unit) :=
  [.guest (.timerStart (.ofNat 1) .nan false), .evalOver none, .drainJobs true, .popBinding none,
    .nextTimer, .wake, .tick 2000000]

theorem drain_waits_within_the_budget_once : ∃ w : Worker Unit,
    run (step Crates.bare) (Worker.build false 1 0) slowCallback = some w ∧
      Bounded Crates.bare (fromMillis 1) w := by
  obtain ⟨w, hrun⟩ : ∃ w, run (step Crates.bare) (Worker.build false 1 0) slowCallback = some w :=
    ⟨_, rfl⟩
  exact ⟨w, hrun, drain_waits_within_the_budget (by decide) hrun (by decide +kernel)⟩

/-- The callback makes a call that is answered at once, and the answer is settled a millisecond
after the deadline. -/
theorem a_ready_answer_is_settled_late :
    ¬ ∀ (acts : List (Act Unit)) (w : Worker Unit),
      run (step Crates.bare) (Worker.build false 1 0) acts = some w →
      Meets (step Crates.bare) (fun w a => prompt w a = true) (Worker.build false 1 0) acts →
      Logged (OnTime (fromMillis 1)) w.log := by
  intro hall
  have hlog := hall (slowCallback ++
    [.guest (.binding (.ofNat 1) (txt "query") (txt "DB") (txt "\x7b\x7d")), .evalOver none,
      .drainJobs true, .popBinding none]) _ rfl (by decide +kernel)
  obtain ⟨start, hstart, hle⟩ := hlog.1
  cases hstart
  exact absurd hle (by decide)

end Worker

end NovaRuntime
