import NovaRuntime.Host.Step

/-!
# How far a timer reaches

Arming a timer adds a delay to the clock, and taking an interval adds its period to the time it was
due; both panic at the end of the clock.

* `clockEnd`        the end of what an `Instant` holds;
* `InReach`         the delays that can be armed at a time; `nativeTimerStart_iff`, and no others;
* `TimerStep`       the steps that arm or take a timer, and `Completes`, that they do not panic;
* `WithinReach`     when they do not;
* `Roomy`           a bound on delays and on the clock that is enough for a run.
-/

namespace NovaRuntime
open Lib

/-- the signed 64-bit seconds of an `Instant`, in nanoseconds -/
def clockEnd : Nat := 2 ^ 63 * 10 ^ 9

/-- the period that an interval is armed again with -/
def Timer.again (period : Nat) : Nat := max period (fromMillis 1)

/-- The clock and the delay are within the clock: the delay, in milliseconds, is divided to the
nearest double and rounded to nanoseconds.  One that is not finite or not positive is no delay. -/
def InReach (now : Nat) : F64 → Prop
  | .fin q =>
    if 0 < q then
      match roundF64 (q / 1000) with
      | .fin s => (now : Int) + roundHalfEven (s * 10 ^ 9) < clockEnd
      | _ => False
    else now < clockEnd
  | .nan | .inf _ => now < clockEnd

theorem roundHalfEven_nonneg {q : ℚ} (h : 0 ≤ q) : 0 ≤ roundHalfEven q := by
  have hfloor : 0 ≤ q.floor := Rat.le_floor_iff.mpr (by simpa using h)
  unfold roundHalfEven
  split
  · exact hfloor
  · split
    · omega
    · split <;> omega

theorem roundF64_nonneg {q s : ℚ} (h : 0 ≤ q) (hs : roundF64 q = .fin s) : 0 ≤ s := by
  unfold roundF64 at hs
  split at hs
  · cases hs
    exact h
  · dsimp only at hs
    split at hs
    · cases hs
    · cases hs
      have hunit : (0 : ℚ) < (2 : ℚ) ^ (max (log2 q - 52) (-1074)) := zpow_pos (by norm_num) _
      have hround := roundHalfEven_nonneg (div_nonneg h (le_of_lt hunit))
      exact mul_nonneg (by exact_mod_cast hround) (le_of_lt hunit)

theorem addDuration_isSome (a d : Nat) : (addDuration a d).isSome ↔ a + d < clockEnd := by
  unfold addDuration clockEnd
  split
  · next h => exact iff_of_true rfl h
  · next h => exact iff_of_false (by simp) h

namespace HostSlots

/-- A timer is armed, without a panic, exactly when its delay is in reach. -/
theorem nativeTimerStart_iff (s : HostSlots) (now : Nat) (origin : Int) (handle delay : F64)
    (repeating : Bool) :
    (s.nativeTimerStart now origin handle delay repeating).isSome ↔ InReach now delay := by
  have hsome : (s.nativeTimerStart now origin handle delay repeating).isSome ↔
      ∃ d, delayOf delay = some d ∧ now + d < clockEnd := by
    unfold nativeTimerStart
    cases hd : delayOf delay with
    | none => simp
    | some d =>
      rw [Option.bind_some, Option.isSome_map, addDuration_isSome]
      simp
  have hzero : (∃ d, some 0 = some d ∧ now + d < clockEnd) ↔ now < clockEnd := by simp
  rw [hsome]
  cases delay with
  | nan => exact hzero
  | inf neg => exact hzero
  | fin q =>
    by_cases hq : 0 < q
    · rw [delayOf, InReach, if_pos hq, if_pos hq]
      cases hs : roundF64 (q / 1000) with
      | nan => simp [fromSecsF64]
      | inf neg => simp [fromSecsF64]
      | fin s =>
        have hpos : 0 ≤ s := roundF64_nonneg (by positivity) hs
        have hround := roundHalfEven_nonneg (mul_nonneg hpos (by norm_num : (0 : ℚ) ≤ 10 ^ 9))
        unfold fromSecsF64 clockEnd
        dsimp only
        split
        · simp only [Option.some.injEq, exists_eq_left']
          omega
        · next hno =>
          refine iff_of_false (by simp) fun hlt => hno ⟨hpos, ?_⟩
          push_cast at hlt
          omega
    · rw [delayOf, InReach, if_neg hq, if_neg hq]
      exact hzero

theorem nextTimer_isSome (s : HostSlots) :
    s.nextTimer.isSome ↔ ∀ pre t post p, firstDue s.timers = some (pre, t, post) →
      t.period = some p → t.due + Timer.again p < clockEnd := by
  unfold nextTimer
  cases hf : firstDue s.timers with
  | none => simp
  | some split =>
    obtain ⟨pre, t, post⟩ := split
    dsimp only
    rw [Option.isSome_map]
    unfold rearm
    cases hp : t.period with
    | none =>
      refine iff_of_true rfl fun pre' t' post' p heq hp' => ?_
      cases heq
      cases hp.symm.trans hp'
    | some p =>
      rw [Option.isSome_map]
      refine (addDuration_isSome _ _).trans ⟨?_, ?_⟩
      · intro h pre' t' post' p' heq hp'
        cases heq
        cases hp.symm.trans hp'
        exact h
      · exact fun h => h pre t post p rfl hp

end HostSlots

namespace Worker
variable {J : Type} {crates : Crates} {w w' : Worker J}

/-- a call of `native_timer_start`, or of `next_timer` -/
def timerStep (w : Worker J) : Act J → Bool
  | .guest (.timerStart _ _ _) => match w.pc with
    | .eval _ => true
    | _ => false
  | .nextTimer => match w.pc with
    | .timers => true
    | _ => false
  | _ => false

/-- if it is such a call, it does not panic -/
def Completes (crates : Crates) (w : Worker J) (a : Act J) : Prop :=
  timerStep w a = true → (step crates w a).isSome = true

instance (w : Worker J) (a : Act J) : Decidable (Completes crates w a) :=
  inferInstanceAs (Decidable (_ → _))

/-- The delay that is armed is in reach; the timer due first is no interval, or is due a period
before the end of the clock. -/
def WithinReach (w : Worker J) (a : Act J) : Prop :=
  timerStep w a = true → match a with
    | .guest (.timerStart _ delay _) => InReach w.now delay
    | _ => ∀ pre t post p, firstDue w.slots.timers = some (pre, t, post) →
      t.period = some p → t.due + Timer.again p < clockEnd

/-- The delay that is armed is in reach; when a timer is taken, two periods of each interval are left
on the clock. -/
def Roomy (w : Worker J) (a : Act J) : Prop :=
  timerStep w a = true → match a with
    | .guest (.timerStart _ delay _) => InReach w.now delay
    | _ => ∀ t ∈ w.slots.timers, ∀ p, t.period = some p → w.now + 2 * Timer.again p < clockEnd

theorem completes_iff (w : Worker J) (a : Act J) : Completes crates w a ↔ WithinReach w a := by
  unfold Completes WithinReach
  refine imp_congr_right fun htimer => ?_
  unfold timerStep at htimer
  split at htimer
  · next handle delay repeating =>
    split at htimer
    · next c hpc =>
      have hstep : step crates w (.guest (.timerStart handle delay repeating)) =
          w.native crates (.timerStart handle delay repeating) := by rw [step, hpc]
      rw [hstep, native, Option.isSome_map]
      exact HostSlots.nativeTimerStart_iff _ _ _ _ _ _
    · cases htimer
  · split at htimer
    · next hpc =>
      have hstep : step crates w .nextTimer = w.nextTimer := by rw [step, hpc]
      have hsome : w.nextTimer.isSome ↔ w.slots.nextTimer.isSome := by
        unfold nextTimer
        rcases w.slots.nextTimer with - | ⟨- | t, slots⟩
        · rfl
        · rfl
        · dsimp only
          split
          · rfl
          · split <;> rfl
      rw [hstep, hsome]
      exact HostSlots.nextTimer_isSome _
    · cases htimer
  · cases htimer

/-! ## intervals are due soon -/

/-- the clock, or where a sleep ends -/
def horizon (w : Worker J) : Nat :=
  match w.pc with
  | .sleeping t => max w.now t.due
  | _ => w.now

/-- each interval is due within a period -/
def Soon (w : Worker J) : Prop :=
  ∀ t ∈ w.slots.timers, ∀ p, t.period = some p → t.due ≤ w.horizon + Timer.again p

theorem le_horizon (w : Worker J) : w.now ≤ w.horizon := by
  unfold horizon
  split
  · exact Nat.le_max_left _ _
  · exact Nat.le_refl _

theorem horizon_awake (h : ∀ t, w.pc ≠ .sleeping t) : w.horizon = w.now := by
  unfold horizon
  split
  · next t hpc => exact absurd hpc (h t)
  · rfl

theorem Soon.of_subset (h : Soon w) (hts : w'.slots.timers ⊆ w.slots.timers)
    (hh : w.horizon ≤ w'.horizon) : Soon w' := fun t ht p hp => by
  have hdue := h t (hts ht) p hp
  omega

/-- the timer due first leaves the list, or is due a period later -/
theorem Soon.nextTimer {pre next post : List Timer} {t : Timer} (h : Soon w)
    (ht : firstDue w.slots.timers = some (pre, t, post)) (hn : rearm t = some next)
    (hts : w'.slots.timers = pre ++ next ++ post) (hh : w.horizon ≤ w'.horizon)
    (hdue : t.due ≤ w'.horizon) : Soon w' := by
  intro u hu p hp
  have hlist := (firstDue_spec ht).1
  have hside : u ∈ pre ++ post → u.due ≤ w'.horizon + Timer.again p := by
    intro hmem
    have hu' : u ∈ w.slots.timers := by
      rw [hlist]
      rcases List.mem_append.mp hmem with hmem | hmem <;> simp [hmem]
    have hsoon := h u hu' p hp
    omega
  rw [hts] at hu
  rcases List.mem_append.mp hu with hu | hu
  · rcases List.mem_append.mp hu with hu | hu
    · exact hside (List.mem_append_left _ hu)
    · rcases rearm_cases hn with ⟨-, rfl⟩ | ⟨period, hperiod, rfl⟩
      · cases hu
      · rw [List.mem_singleton.mp hu] at hp ⊢
        cases hperiod.symm.trans hp
        show t.due + Timer.again p ≤ _
        omega
  · exact hside (List.mem_append_right _ hu)

/-- a timer more, due a delay after the clock; its period is none or that delay -/
theorem Soon.armed {armed : Timer} {d : Nat} (h : Soon w) (hh : w.horizon ≤ w'.horizon)
    (hts : w'.slots.timers = w.slots.timers ++ [armed]) (hdue : armed.due = w.now + d)
    (hperiod : ∀ p, armed.period = some p → p = d) : Soon w' := by
  intro t ht p hp
  rw [hts] at ht
  rcases List.mem_append.mp ht with ht | ht
  · have hsoon := h t ht p hp
    omega
  · rw [List.mem_singleton.mp ht] at hp ⊢
    rw [hdue, ← hperiod p hp]
    have hnow := le_trans (le_horizon w) hh
    have hagain : p ≤ Timer.again p := Nat.le_max_left _ _
    omega

/-- fewer timers after an act of a worker that is not asleep -/
theorem Soon.awake (h : Soon w) (hpc : ∀ t, w.pc ≠ .sleeping t)
    (hts : w'.slots.timers ⊆ w.slots.timers) (hnow : w'.now = w.now) : Soon w' := by
  have hh : w.horizon ≤ w'.horizon := by
    rw [horizon_awake hpc, ← hnow]
    exact le_horizon w'
  exact h.of_subset hts hh

theorem Soon.step {a : Act J} (h : Soon w) (hs : step crates w a = some w') : Soon w' := by
  have hsame : w.slots.timers ⊆ w.slots.timers := List.Subset.refl _
  cases step_cases hs with
  | tick d =>
    refine h.of_subset hsame ?_
    unfold horizon
    dsimp only
    split <;> omega
  | enqueue _ _ hpc | respondOther _ _ hpc | respondMatch _ _ hpc | respondPayload _ _ _ _ hpc
  | respondThrows _ _ _ hpc | binding _ _ _ _ _ _ hpc | drain _ _ hpc | startupThrew _ hpc
  | dispatcherThrew _ hpc | jobOver _ _ _ hpc | callbackOver _ _ hpc | noJobs _ _ hpc
  | jobCap _ hpc | runJob _ _ _ hpc | putBack _ _ _ hpc | noBindings _ hpc
  | ready _ _ _ _ _ hpc | await _ _ _ hpc | answered _ _ _ hpc | elapsed _ _ hpc | noTimers hpc
  | refuse _ _ hpc | dispatch _ _ hpc | buildFailed _ hpc | built hpc | failed _ hpc | took hpc
  | abort hpc =>
    exact h.awake (by simp [hpc]) hsame rfl
  | timerClear handle c hpc => exact h.awake (by simp [hpc]) (List.filter_subset_self _) rfl
  | overran pre t post next deadline hpc =>
    exact h.awake (by simp [hpc]) (List.nil_subset _) rfl
  | timerStart handle delay repeating d due c hpc hd hdue =>
    have hh : w.horizon = w.now := horizon_awake (by simp [hpc])
    refine h.armed (d := d) ?_ rfl (addDuration_eq hdue) ?_
    · rw [hh]
      exact le_horizon _
    · intro p hp
      cases repeating with
      | false => cases hp
      | true =>
        cases hp
        rfl
  | sleep pre t post next hpc ht hn hd hle =>
    refine h.nextTimer ht hn rfl ?_ (Nat.le_max_right _ _)
    rw [horizon_awake (by simp [hpc])]
    exact Nat.le_max_left _ _
  | fireLate pre t post next hpc ht hn hd hlt =>
    refine h.nextTimer ht hn rfl ?_ (Nat.le_of_lt hlt)
    rw [horizon_awake (by simp [hpc])]
    exact Nat.le_refl _
  | wake t hpc hle =>
    refine h.of_subset hsame ?_
    unfold horizon
    rw [hpc]
    exact Nat.max_le.mpr ⟨Nat.le_refl _, hle⟩

theorem Soon.build (ops : Bool) (ms now : Nat) : Soon (build ops ms now : Worker J) := by
  intro t ht
  cases ht

/-- with two periods left, the timer due first is within reach -/
theorem Roomy.withinReach {a : Act J} (h : Soon w) (hroomy : Roomy w a) : WithinReach w a := by
  intro htimer
  have hr := hroomy htimer
  cases a with
  | guest g => cases g <;> first | exact hr | cases htimer
  | nextTimer =>
    intro pre t post p ht hp
    have hmem : t ∈ w.slots.timers := by
      rw [(firstDue_spec ht).1]
      simp
    have hpc : w.pc = .timers := by
      unfold timerStep at htimer
      dsimp only at htimer
      split at htimer
      · assumption
      · cases htimer
    have hnow : w.horizon = w.now := horizon_awake (by simp [hpc])
    have hsoon := h t hmem p hp
    have hleft := hr t hmem p hp
    omega
  | _ => cases htimer

/-- The calls of `native_timer_start` and `next_timer` in a run complete exactly when they are within
reach, for which it is enough that they are roomy. -/
theorem timers_complete_iff (ops : Bool) (ms now : Nat) (acts : List (Act J)) :
    (Meets (step crates) (Completes crates) (Worker.build ops ms now) acts ↔
        Meets (step crates) WithinReach (Worker.build ops ms now) acts) ∧
      (Meets (step crates) Roomy (Worker.build ops ms now) acts →
        Meets (step crates) WithinReach (Worker.build ops ms now) acts) :=
  ⟨meets_congr (step crates) completes_iff _ _,
    meets_of_inv (step crates) (fun _ _ _ h hs => Soon.step h hs)
      (fun _ _ h hroomy => Roomy.withinReach h hroomy) (Soon.build ops ms now)⟩

/-- A timeout of 2·10²² milliseconds takes the worker down; an interval of 5·10²¹ does when the drain
takes it. -/
theorem a_delay_takes_the_worker_down :
    ¬ Meets (step Crates.bare) (Completes Crates.bare) (Worker.build false 0 0 : Worker Unit)
        [.guest (.timerStart (.ofNat 1) (.ofNat (2 * 10 ^ 22)) false)] ∧
      ¬ Meets (step Crates.bare) (Completes Crates.bare) (Worker.build false 0 0 : Worker Unit)
        [.guest (.timerStart (.ofNat 1) (.ofNat (5 * 10 ^ 21)) true), .evalOver none,
          .drainJobs true, .popBinding none, .nextTimer] := by
  constructor <;> decide +kernel

end Worker

end NovaRuntime
