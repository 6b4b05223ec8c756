import Mathlib.Algebra.Order.BigOperators.Group.List
import NovaRuntime.Runs.WallClock

/-!
# A drain ends after its deadline

Past its deadline a drain still hands over answers that are ready at once and fires timers that were
due before.  These run out, unless the guest goes on making calls that are answered at once.

* `turnsLeft`   the turns that a timer has up to the deadline;
* `rank`        a bound on the steps that the host has left;
* `Overdue`     the states of a drain after its deadline, and of its end;
* `Ends`        the drain is not stuck, and it ends.
-/

namespace NovaRuntime
open Lib

/-- a turn of the worker, and no tick of the clock or doing of the guest -/
def Act.isHost {J : Type} : Act J → Bool
  | .tick _ | .guest _ => false
  | _ => true

/-- a call of a binding -/
def Act.isCall {J : Type} : Act J → Bool
  | .guest (.binding ..) => true
  | _ => false

/-- the turns that a timer has up to the deadline -/
def Timer.turnsLeft (deadline : Nat) (t : Timer) : Nat :=
  if deadline < t.due then 0
  else
    match t.period with
    | none => 1
    | some period => (deadline - t.due) / max period (fromMillis 1) + 1

namespace Worker
variable {J : Type} {crates : Crates} {w w' : Worker J} {deadline : Nat}

/-- the turns of timers and the answers that a drain has left -/
def turnsLeft (deadline : Nat) (w : Worker J) : Nat :=
  (w.slots.timers.map (Timer.turnsLeft deadline)).sum + w.slots.bindings.length

/-- the steps up to the next round of jobs, bindings and timers -/
def roundLeft : Pc J → Nat
  | .jobs left => 2 * left + 3
  | .eval (.job left _) => 2 * left + 4
  | .eval (.settle _ _) | .eval (.timer _) => 2 * maxJobsPerDrain + 4
  | .awaiting _ | .sleeping _ => 2 * maxJobsPerDrain + 5
  | .bindings => 2
  | .timers => 1
  | .idle | .dead | .ended _ | .eval .startup | .eval .dispatcher => 0

/-- the steps of a round, from its timer or answer on -/
def roundSteps : Nat := 2 * maxJobsPerDrain + 5

def rank (deadline : Nat) (w : Worker J) : Nat :=
  roundSteps * w.turnsLeft deadline + roundLeft w.pc

/-! ## turns -/

theorem turnsLeft_rearm {t : Timer} {next : List Timer} (h : rearm t = some next)
    (hdue : t.due ≤ deadline) :
    (next.map (Timer.turnsLeft deadline)).sum + 1 = t.turnsLeft deadline := by
  rcases rearm_cases h with ⟨hperiod, rfl⟩ | ⟨period, hperiod, rfl⟩
  · rw [Timer.turnsLeft, if_neg (Nat.not_lt.mpr hdue), hperiod]
    rfl
  · have hpos : 0 < max period (fromMillis 1) := lt_of_lt_of_le (by decide) (le_max_right _ _)
    rw [List.map_singleton, List.sum_singleton, Timer.turnsLeft, Timer.turnsLeft,
      if_neg (Nat.not_lt.mpr hdue), hperiod]
    dsimp only
    generalize max period (fromMillis 1) = step at hpos ⊢
    split
    · next hlate => rw [Nat.div_eq_of_lt (a := deadline - t.due) (by omega)]
    · next hin =>
      have hrest : deadline - (t.due + step) = deadline - t.due - step := by omega
      rw [hrest, Nat.div_eq_sub_div (a := deadline - t.due) hpos (by omega)]

theorem turnsLeft_fire {pre post next : List Timer} {t : Timer}
    (ht : firstDue w.slots.timers = some (pre, t, post)) (hn : rearm t = some next)
    (hdue : t.due ≤ deadline) (htimers : w'.slots.timers = pre ++ next ++ post)
    (hbindings : w'.slots.bindings = w.slots.bindings) :
    w'.turnsLeft deadline + 1 = w.turnsLeft deadline := by
  have hturn := turnsLeft_rearm hn hdue
  rw [turnsLeft, turnsLeft, htimers, hbindings, (firstDue_spec ht).1, List.map_append, List.map_append,
    List.sum_append, List.sum_append, List.map_append, List.sum_append, List.map_cons, List.sum_cons]
  omega

/-! ## what a step pays -/

/-- a drain after its deadline, or its end -/
structure Overdue (deadline : Nat) (w : Worker J) : Prop where
  limit : w.deadline = some deadline
  late : deadline < w.now
  drain : w.Draining ∨ ∃ r, w.pc = .ended r

/-- Neither outside of a drain nor in front of it. -/
theorem Overdue.not_outside (hw : Overdue deadline w) {pc : Pc J} (hpc : w.pc = pc)
    (hpcs : pc = .idle ∨ pc = .eval .startup ∨ pc = .eval .dispatcher) : False := by
  rcases hw.drain with hdrain | ⟨r, hr⟩
  · unfold Draining at hdrain
    rw [hpc] at hdrain
    rcases hpcs with rfl | rfl | rfl <;> exact hdrain
  · rw [hpc] at hr
    rcases hpcs with rfl | rfl | rfl <;> cases hr

theorem Overdue.step {a : Act J} (hw : Overdue deadline w) (ha : a ≠ .finish)
    (h : step crates w a = some w') : Overdue deadline w' := by
  obtain ⟨hlimit, hlate, hdrain⟩ := id hw
  cases step_cases h with
  | tick d => exact ⟨hlimit, Nat.lt_of_lt_of_le hlate (Nat.le_add_right _ _), hdrain⟩
  | enqueue | respondOther | respondMatch | respondPayload | respondThrows | timerStart | timerClear
  | binding => exact ⟨hlimit, hlate, hdrain⟩
  | drain c _ hpc _ hc => exact (hw.not_outside hpc (.inr (by rcases hc with rfl | rfl <;> simp))).elim
  | startupThrew _ hpc => exact (hw.not_outside hpc (.inr (.inl rfl))).elim
  | dispatcherThrew _ hpc => exact (hw.not_outside hpc (.inr (.inr rfl))).elim
  | refuse _ _ hpc | dispatch _ _ hpc | abort hpc => exact (hw.not_outside hpc (.inl rfl)).elim
  | jobCap | elapsed | noTimers | overran => exact ⟨hlimit, hlate, .inr ⟨_, rfl⟩⟩
  | buildFailed | built | failed | took => exact absurd rfl ha
  | jobOver | callbackOver | noJobs | runJob | putBack | noBindings | ready | await | answered | sleep
  | fireLate | wake => exact ⟨hlimit, hlate, .inl trivial⟩

/-- A step is paid by its round, or by `k` turns that are gone. -/
theorem rank_pay {k : Nat} {pc : Pc J} (hpc : w.pc = pc)
    (hturns : w'.turnsLeft deadline + k ≤ w.turnsLeft deadline)
    (hround : roundLeft w'.pc + 1 ≤ roundSteps * k + roundLeft pc) :
    1 + rank deadline w' ≤ rank deadline w + 0 := by
  have hpaid := Nat.mul_le_mul_left roundSteps hturns
  rw [Nat.mul_add] at hpaid
  rw [rank, rank, hpc]
  omega

theorem rank_call (hturns : w'.turnsLeft deadline = w.turnsLeft deadline + 1) (hpc : w'.pc = w.pc) :
    0 + rank deadline w' ≤ rank deadline w + roundSteps := by
  rw [rank, rank, hpc, hturns, Nat.mul_succ]
  omega

theorem rank_step {a : Act J} (hw : Overdue deadline w) (ha : a ≠ .finish)
    (h : step crates w a = some w') :
    (if a.isHost then 1 else 0) + rank deadline w' ≤
      rank deadline w + if a.isCall then roundSteps else 0 := by
  cases step_cases h with
  | tick | enqueue | respondOther | respondMatch | respondPayload | respondThrows =>
    exact (Nat.zero_add _).le
  | timerStart handle delay repeating d due c hpc hd hdue =>
    -- what starts now is due after the deadline
    have hnone : Timer.turnsLeft deadline
        ⟨handle, due, if repeating then some d else none, w.slots.timerSeq, w.dispatches⟩ = 0 := by
      have hlate : deadline < due := by
        rw [addDuration_eq hdue]
        exact Nat.lt_of_lt_of_le hw.late (Nat.le_add_right _ _)
      rw [Timer.turnsLeft, if_pos hlate]
    refine (Nat.zero_add _).trans_le (Nat.add_le_add_right (Nat.mul_le_mul_left _ ?_) _)
    rw [turnsLeft, turnsLeft, List.map_append, List.sum_append, List.map_singleton,
      List.sum_singleton, hnone, Nat.add_zero]
  | timerClear handle c hpc =>
    refine (Nat.zero_add _).trans_le (Nat.add_le_add_right (Nat.mul_le_mul_left _ ?_) _)
    exact Nat.add_le_add_right ((List.filter_sublist.map _).sum_le_sum fun _ _ => Nat.zero_le _) _
  | binding id kind name params answer c hpc =>
    refine rank_call ?_ rfl
    rw [turnsLeft, turnsLeft, List.length_append, List.length_singleton, Nat.add_assoc]
  | drain c _ hpc _ hc => exact (hw.not_outside hpc (.inr (by rcases hc with rfl | rfl <;> simp))).elim
  | startupThrew _ hpc => exact (hw.not_outside hpc (.inr (.inl rfl))).elim
  | dispatcherThrew _ hpc => exact (hw.not_outside hpc (.inr (.inr rfl))).elim
  | refuse _ _ hpc | dispatch _ _ hpc | abort hpc => exact (hw.not_outside hpc (.inl rfl)).elim
  | buildFailed | built | failed | took => exact absurd rfl ha
  | jobOver _ left _ hpc => exact rank_pay (k := 0) hpc le_rfl (by simp [roundLeft])
  | callbackOver thrown c hpc hf hc =>
    refine rank_pay (k := 0) hpc le_rfl ?_
    rcases hc with ⟨_, _, rfl⟩ | ⟨_, rfl⟩ <;> simp [roundLeft]
  | noJobs _ left hpc => exact rank_pay (k := 0) hpc le_rfl (by simp [roundLeft])
  | jobCap _ hpc => exact rank_pay (k := 0) hpc le_rfl (by simp [roundLeft])
  | runJob left job jobs hpc => exact rank_pay (k := 0) hpc le_rfl (by simp [roundLeft, Nat.mul_succ])
  | putBack left job jobs hpc => exact rank_pay (k := 0) hpc le_rfl (by simp [roundLeft, Nat.mul_succ])
  | noBindings _ hpc => exact rank_pay (k := 0) hpc le_rfl (by simp [roundLeft])
  | ready reply rest p answer log hpc hb =>
    refine rank_pay (k := 1) hpc ?_ (by simp [roundLeft, roundSteps])
    rw [turnsLeft, turnsLeft, hb, List.length_append, List.length_singleton, Nat.add_assoc]
  | await rest p log hpc hb =>
    refine rank_pay (k := 1) hpc ?_ (by simp [roundLeft, roundSteps])
    rw [turnsLeft, turnsLeft, hb, List.length_append, List.length_singleton, Nat.add_assoc]
  | answered _ _ _ hpc => exact rank_pay (k := 0) hpc le_rfl (by simp [roundLeft])
  | elapsed _ _ hpc => exact rank_pay (k := 0) hpc le_rfl (by simp [roundLeft])
  | noTimers hpc => exact rank_pay (k := 0) hpc le_rfl (by simp [roundLeft])
  | overran pre t post next _ hpc =>
    exact rank_pay (k := 0) hpc (Nat.add_le_add_right (Nat.zero_le _) _) (by simp [roundLeft])
  | sleep pre t post next hpc ht hn hd | fireLate pre t post next hpc ht hn hd =>
    refine rank_pay (k := 1) hpc ?_ (by simp [roundLeft, roundSteps])
    exact Nat.le_of_eq (turnsLeft_fire ht hn (hd deadline hw.limit) rfl rfl)
  | wake t hpc => exact rank_pay (k := 0) hpc le_rfl (by simp [roundLeft])

/-! ## the end of a drain -/

/-- A host that is not at the guest's mercy has a step to take, or panics for the time of a timer. -/
def Goes (crates : Crates) (w : Worker J) : Prop :=
  (∃ c, w.pc = .eval c ∧ w.frames ≠ []) ∨
    (∃ pre t post, firstDue w.slots.timers = some (pre, t, post) ∧ rearm t = none) ∨
      ∃ a : Act J, a.isHost = true ∧ a ≠ .finish ∧ (step crates w a).isSome

/-- a drain sleeps for a timer that is due by the deadline, and is in the middle of a round at most -/
structure Paced (w : Worker J) : Prop where
  asleep {t : Timer} {deadline : Nat} : w.pc = .sleeping t → w.deadline = some deadline →
    t.due ≤ deadline
  round : roundLeft w.pc ≤ roundSteps

theorem Paced.step {a : Act J} (hw : Paced w) (h : step crates w a = some w') : Paced w' where
  asleep {t deadline} hpc hlimit := by
    cases step_cases h with
    | sleep pre t' post next _ _ _ hd =>
      cases hpc
      exact hd deadline hlimit
    | tick => exact hw.asleep hpc hlimit
    | enqueue _ _ heval | respondOther _ _ heval | respondMatch _ _ heval
    | respondPayload _ _ _ _ heval | respondThrows _ _ _ heval | timerStart _ _ _ _ _ _ heval
    | timerClear _ _ heval | binding _ _ _ _ _ _ heval | refuse _ _ heval | abort heval =>
      have hpc : w.pc = .sleeping t := hpc
      rw [heval] at hpc
      cases hpc
    | _ => cases hpc
  round := by
    have hround := hw.round
    cases step_cases h with
    | tick | enqueue | respondOther | respondMatch | respondPayload | respondThrows | timerStart
    | timerClear | binding | refuse | abort => exact hround
    | runJob left job jobs hpc | putBack left job jobs hpc | jobOver _ left _ hpc =>
      rw [hpc] at hround
      simp only [roundLeft] at hround ⊢
      omega
    | _ => simp [roundLeft, roundSteps]

theorem Overdue.goes (hw : Overdue deadline w) (hpaced : Paced w)
    (hopen : ∀ r, w.pc ≠ .ended r) : Goes crates w := by
  have hgo {a : Act J} (hhost : a.isHost = true) (ha : a ≠ .finish)
      (hstep : (Worker.step crates w a).isSome) : Goes crates w := .inr (.inr ⟨a, hhost, ha, hstep⟩)
  cases hpc : w.pc with
  | idle => exact (hw.not_outside hpc (.inl rfl)).elim
  | dead =>
    rcases hw.drain with hdrain | ⟨r, hr⟩
    · unfold Draining at hdrain
      rw [hpc] at hdrain
      exact hdrain.elim
    · exact absurd hr (hopen r)
  | ended r => exact absurd hpc (hopen r)
  | eval c =>
    by_cases hframes : w.frames = []
    · refine hgo (a := .evalOver none) rfl (fun h => by cases h) ?_
      simp only [Worker.step, hpc, hframes]
      cases c with
      | startup => exact (hw.not_outside hpc (.inr (.inl rfl))).elim
      | dispatcher => exact (hw.not_outside hpc (.inr (.inr rfl))).elim
      | job | settle | timer => rfl
    · exact .inl ⟨c, hpc, hframes⟩
  | jobs left =>
    refine hgo (a := .drainJobs true) rfl (fun h => by cases h) ?_
    simp only [Worker.step, hpc]
    rfl
  | bindings =>
    refine hgo (a := .popBinding none) rfl (fun h => by cases h) ?_
    simp only [Worker.step, hpc, popBinding]
    split
    · rfl
    · next p slots _ => cases p.answer.poll crates none <;> rfl
  | awaiting p =>
    refine hgo (a := .elapsed) rfl (fun h => by cases h) ?_
    have hover : (some deadline).any (· ≤ w.now) = true := decide_eq_true hw.late.le
    simp only [Worker.step, hpc, hw.limit]
    rw [if_pos hover]
    rfl
  | timers =>
    cases hnext : w.nextTimer with
    | some w' =>
      refine hgo (a := .nextTimer) rfl (fun h => by cases h) ?_
      simp only [Worker.step, hpc, hnext]
      rfl
    | none =>
      refine .inr (.inl ?_)
      unfold nextTimer HostSlots.nextTimer at hnext
      cases ht : firstDue w.slots.timers with
      | none => simp only [ht, reduceCtorEq] at hnext
      | some split =>
        obtain ⟨pre, t, post⟩ := split
        refine ⟨pre, t, post, rfl, ?_⟩
        cases hn : rearm t with
        | none => rfl
        | some next =>
          simp only [ht, hn, Option.map_some] at hnext
          split at hnext
          · cases hnext
          · split at hnext <;> cases hnext
  | sleeping t =>
    refine hgo (a := .wake) rfl (fun h => by cases h) ?_
    simp only [Worker.step, hpc]
    rw [if_pos ((hpaced.asleep hpc hw.limit).trans hw.late.le)]
    rfl

/-- After its deadline a drain takes a step, and it takes no more of them than there are in a round for
each turn that its timers have had by the deadline, for each answer and for each call that the guest
goes on to make. -/
theorem drain_ends_after_deadline {ops : Bool} {ms now : Nat} {before : List (Act J)}
    (hbefore : run (Worker.step crates) (Worker.build ops ms now) before = some w) (hdrain : w.Draining)
    (hlimit : w.deadline = some deadline) (hlate : deadline < w.now) {acts : List (Act J)}
    (hrun : run (Worker.step crates) w acts = some w') (hsame : ∀ a ∈ acts, a ≠ .finish) :
    acts.countP Act.isHost ≤ roundSteps * (w.turnsLeft deadline + acts.countP Act.isCall + 1) ∧
      ((∀ r, w'.pc ≠ .ended r) → Goes crates w') := by
  have hstart : Overdue deadline w := ⟨hlimit, hlate, .inl hdrain⟩
  have hbuild : Paced (Worker.build ops ms now : Worker J) :=
    ⟨(fun hpc => by cases hpc), Nat.zero_le _⟩
  have hpaced : Paced w := run_inv _ (fun _ _ _ h hs => Paced.step h hs) hbuild hbefore
  obtain ⟨⟨hend, hpaced'⟩, hpaid⟩ : (Overdue deadline w' ∧ Paced w') ∧
      acts.countP Act.isHost + rank deadline w' ≤
        rank deadline w + roundSteps * acts.countP Act.isCall :=
    run_pays (Worker.step crates) (I := fun w => Overdue deadline w ∧ Paced w)
      (fun _ _ _ h ha hs => ⟨h.1.step ha hs, h.2.step hs⟩)
      (fun _ _ _ h ha hs => rank_step h.1 ha hs) ⟨hstart, hpaced⟩ hsame hrun
  refine ⟨?_, hend.goes hpaced'⟩
  have hround := hpaced.round
  rw [rank, rank] at hpaid
  rw [Nat.mul_add, Nat.mul_add, Nat.mul_one]
  omega

/-- the callback makes a call, which is answered at once, and the drain is over -/
def overtime : List (Act Unit) :=
  [.guest (.binding (.ofNat 1) (txt "query") (txt "DB") (txt "\x7b\x7d")), .evalOver none,
    .drainJobs true, .popBinding none, .evalOver none, .drainJobs true, .popBinding none, .nextTimer]

theorem drain_ends_after_deadline_once : ∃ w w' : Worker Unit,
    run (Worker.step Crates.bare) (Worker.build false 1 0) slowCallback = some w ∧
      run (Worker.step Crates.bare) w overtime = some w' ∧ w'.pc = .ended (.ok ()) ∧
      overtime.countP Act.isHost ≤
        roundSteps * (w.turnsLeft (fromMillis 1) + overtime.countP Act.isCall + 1) := by
  obtain ⟨w, hbefore, hdrain, hlimit, hlate, w', hrun, hend⟩ : ∃ w : Worker Unit,
      run (Worker.step Crates.bare) (Worker.build false 1 0) slowCallback = some w ∧ w.Draining ∧
        w.deadline = some (fromMillis 1) ∧ fromMillis 1 < w.now ∧
          ∃ w', run (Worker.step Crates.bare) w overtime = some w' ∧ w'.pc = .ended (.ok ()) :=
    ⟨_, rfl, trivial, rfl, by decide, _, rfl, rfl⟩
  have hsame : ∀ a ∈ overtime, a ≠ .finish := by
    intro a ha h
    subst h
    simp [overtime] at ha
  exact ⟨w, w', hbefore, hrun, hend,
    (drain_ends_after_deadline hbefore hdrain hlimit hlate hrun hsame).1⟩

end Worker
end NovaRuntime
