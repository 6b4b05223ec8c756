import Mathlib.Data.Prod.Lex
import NovaRuntime.Host.Step

/-!
# Timers fire in one order

The pairs of due time and insertion number of the timers that fire increase strictly over a whole
run, intervals and later dispatches included.

* `Timer.key`   the pair, ordered lexicographically;
* `firings`     the keys of the timers fired so far;
* `Ordered`     everything armed, or armed later, is above everything fired.
-/

namespace NovaRuntime
open Lib

/-- when a timer is due, and how many were set before it -/
def Timer.key (t : Timer) : ℕ ×ₗ ℕ := toLex (t.due, t.seq)

/-- the keys of the timers that fired, newest first -/
def firings : List Obs → List (ℕ ×ₗ ℕ)
  | [] => []
  | .fired t _ _ _ :: log => t.key :: firings log
  | _ :: log => firings log

theorem Timer.key_lt {t u : Timer} :
    t.key < u.key ↔ t.due < u.due ∨ t.due = u.due ∧ t.seq < u.seq := by
  simp [Timer.key, Prod.Lex.toLex_lt_toLex]

theorem Timer.key_lt_of_before {t u : Timer} (h : Timer.before t u = true)
    (hne : t.seq ≠ u.seq) : t.key < u.key := by
  simp only [Timer.before, Bool.or_eq_true, Bool.and_eq_true, decide_eq_true_eq] at h
  rw [Timer.key_lt]
  omega

/-! ## the timer that is due -/

section
variable {ts pre post next : List Timer} {t : Timer}

/-- Once the timer due first is taken out, or armed again, everything left is due after it. -/
theorem nextTimer_above (hts : firstDue ts = some (pre, t, post)) (hnext : rearm t = some next)
    (hdist : ts.Pairwise fun t u => t.seq ≠ u.seq) :
    ∀ u ∈ pre ++ next ++ post, t.key < u.key := by
  obtain ⟨rfl, hmin⟩ := firstDue_spec hts
  have hside : ∀ u ∈ pre ++ post, t.key < u.key := by
    intro u hu
    obtain ⟨-, hpost, hpre⟩ := List.pairwise_append.mp hdist
    refine Timer.key_lt_of_before (hmin u ?_) ?_
    · rcases List.mem_append.mp hu with hu | hu <;> simp [hu]
    · rcases List.mem_append.mp hu with hu | hu
      · exact (hpre u hu t List.mem_cons_self).symm
      · exact (List.pairwise_cons.mp hpost).1 u hu
  intro u hu
  rcases List.mem_append.mp hu with hu | hu
  · rcases List.mem_append.mp hu with hu | hu
    · exact hside u (List.mem_append_left _ hu)
    · rcases rearm_cases hnext with ⟨-, rfl⟩ | ⟨period, -, rfl⟩
      · cases hu
      · rw [List.mem_singleton.mp hu, Timer.key_lt]
        have hms : 0 < max period (fromMillis 1) := lt_of_lt_of_le (by decide) (le_max_right _ _)
        exact .inl (Nat.lt_add_of_pos_right hms)
  · exact hside u (List.mem_append_right _ hu)

/-- Taking a timer out, or arming it again, makes no new insertion number. -/
theorem nextTimer_seqs (hts : firstDue ts = some (pre, t, post)) (hnext : rearm t = some next) :
    ((pre ++ next ++ post).map Timer.seq).Sublist (ts.map Timer.seq) := by
  obtain ⟨rfl, -⟩ := firstDue_spec hts
  simp only [List.append_assoc, List.map_append]
  refine List.Sublist.append (List.Sublist.refl _) ?_
  rcases rearm_cases hnext with ⟨-, rfl⟩ | ⟨period, -, rfl⟩
  · exact (List.sublist_cons_self t post).map _
  · exact List.Sublist.refl _

end

/-! ## the invariant -/

/-- The armed timers have insertion numbers of their own, and what is still to fire is above all
that fired. -/
structure Armed (slots : HostSlots) (now : Nat) (log : List Obs) : Prop where
  fresh : ∀ t ∈ slots.timers, t.seq < slots.timerSeq
  distinct : slots.timers.Pairwise fun t u => t.seq ≠ u.seq
  past : ∀ k ∈ firings log, (ofLex k).1 ≤ now ∧ (ofLex k).2 < slots.timerSeq
  above : ∀ t ∈ slots.timers, ∀ k ∈ firings log, k < t.key
  sorted : (firings log).Pairwise (· > ·)

/-- a timer that was taken out of the list and has not fired yet -/
structure Taken (slots : HostSlots) (log : List Obs) (t : Timer) : Prop where
  fresh : t.seq < slots.timerSeq
  above : ∀ k ∈ firings log, k < t.key
  below : ∀ u ∈ slots.timers, t.key < u.key

namespace Armed
variable {slots : HostSlots} {now : Nat} {log : List Obs}

theorem later (h : Armed slots now log) (d : Nat) : Armed slots (now + d) log :=
  { h with past := fun k hk => ⟨Nat.le_add_right_of_le (h.past k hk).1, (h.past k hk).2⟩ }

theorem of_log {log' : List Obs} (h : Armed slots now log) (hlog : firings log' = firings log) :
    Armed slots now log' where
  fresh := h.fresh
  distinct := h.distinct
  past := by rw [hlog]; exact h.past
  above := by rw [hlog]; exact h.above
  sorted := by rw [hlog]; exact h.sorted

/-- a new timer is due now at the earliest, and has the largest insertion number -/
theorem start (h : Armed slots now log) (handle : F64) (d : Nat) (period : Option Nat)
    (origin : Int) :
    Armed { slots with
      timerSeq := slots.timerSeq + 1
      timers := slots.timers ++ [⟨handle, now + d, period, slots.timerSeq, origin⟩] } now log where
  fresh := by
    intro t ht
    rcases List.mem_append.mp ht with ht | ht
    · exact Nat.lt_succ_of_lt (h.fresh t ht)
    · rw [List.mem_singleton.mp ht]
      exact Nat.lt_succ_self _
  distinct := by
    refine List.pairwise_append.mpr ⟨h.distinct, List.pairwise_singleton _ _, ?_⟩
    intro t ht u hu
    rw [List.mem_singleton.mp hu]
    exact Nat.ne_of_lt (h.fresh t ht)
  past := fun k hk => ⟨(h.past k hk).1, Nat.lt_succ_of_lt (h.past k hk).2⟩
  above := by
    intro t ht k hk
    rcases List.mem_append.mp ht with ht | ht
    · exact h.above t ht k hk
    · rw [List.mem_singleton.mp ht]
      obtain ⟨hdue, hseq⟩ := h.past k hk
      rw [← toLex_ofLex k]
      refine Prod.Lex.toLex_lt_toLex.mpr ?_
      show (ofLex k).1 < now + d ∨ (ofLex k).1 = now + d ∧ (ofLex k).2 < slots.timerSeq
      omega
  sorted := h.sorted

theorem sublist {ts : List Timer} (h : Armed slots now log) (hts : ts.Sublist slots.timers) :
    Armed { slots with timers := ts } now log where
  fresh := fun t ht => h.fresh t (hts.subset ht)
  distinct := h.distinct.sublist hts
  past := h.past
  above := fun t ht => h.above t (hts.subset ht)
  sorted := h.sorted

/-- the timer due first leaves the list, or moves to its next turn -/
theorem nextTimer {pre post next : List Timer} {t : Timer} (h : Armed slots now log)
    (ht : firstDue slots.timers = some (pre, t, post)) (hn : rearm t = some next) :
    Armed { slots with timers := pre ++ next ++ post } now log ∧
      Taken { slots with timers := pre ++ next ++ post } log t := by
  have hmem : t ∈ slots.timers := by
    rw [(firstDue_spec ht).1]
    simp
  have hseqs := nextTimer_seqs ht hn
  have hbelow := nextTimer_above ht hn h.distinct
  have hdist : ((pre ++ next ++ post).map Timer.seq).Pairwise (· ≠ ·) :=
    (List.pairwise_map.mpr h.distinct).sublist hseqs
  refine ⟨⟨?_, List.pairwise_map.mp hdist, h.past, ?_, h.sorted⟩,
    ⟨h.fresh t hmem, h.above t hmem, hbelow⟩⟩
  · intro u hu
    obtain ⟨v, hv, hvu⟩ := List.mem_map.mp (hseqs.subset (List.mem_map_of_mem hu))
    exact hvu ▸ h.fresh v hv
  · exact fun u hu k hk => lt_trans (h.above t hmem k hk) (hbelow u hu)

theorem fire {t : Timer} (n : Int) (waited : Bool) (h : Armed slots now log)
    (ht : Taken slots log t) (hdue : t.due ≤ now) :
    Armed slots now (.fired t n now waited :: log) where
  fresh := h.fresh
  distinct := h.distinct
  past := by
    intro k hk
    rcases List.mem_cons.mp hk with rfl | hk
    · exact ⟨hdue, ht.fresh⟩
    · exact h.past k hk
  above := by
    intro u hu k hk
    rcases List.mem_cons.mp hk with rfl | hk
    · exact ht.below u hu
    · exact h.above u hu k hk
  sorted := List.pairwise_cons.mpr ⟨ht.above, h.sorted⟩

end Armed

namespace Worker
variable {J : Type} {crates : Crates} {w w' : Worker J}

structure Ordered (w : Worker J) : Prop where
  armed : Armed w.slots w.now w.log
  asleep : ∀ t, w.pc = .sleeping t → Taken w.slots w.log t

theorem Ordered.of_armed (h : Armed w.slots w.now w.log) (hpc : ∀ t, w.pc ≠ .sleeping t) :
    Ordered w :=
  ⟨h, fun t ht => absurd ht (hpc t)⟩

theorem firings_polled {p : Pending} {log : List Obs}
    (hlog : log = if p.answer.asks then .invoked p.call :: w.log else w.log) :
    firings log = firings w.log := by
  rw [hlog]
  split <;> rfl

theorem Ordered.step {a : Act J} (hw : Ordered w) (h : step crates w a = some w') :
    Ordered w' := by
  have harmed := hw.armed
  cases step_cases h with
  | tick d => exact ⟨harmed.later d, hw.asleep⟩
  | enqueue _ _ hpc | respondMatch _ _ hpc | respondThrows _ _ _ hpc =>
    exact .of_armed harmed (by simp [hpc])
  | respondOther _ _ hpc | refuse _ _ hpc => exact .of_armed (harmed.of_log rfl) (by simp [hpc])
  | respondPayload _ _ _ _ hpc => exact .of_armed { harmed.of_log rfl with } (by simp [hpc])
  | binding _ _ _ _ _ _ hpc => exact .of_armed { harmed.of_log rfl with } (by simp [hpc])
  | abort hpc => exact .of_armed harmed (by simp [hpc])
  | timerStart handle delay repeating d due c hpc hd hdue =>
    rw [addDuration_eq hdue]
    exact .of_armed (harmed.start handle d _ _) (by simp [hpc])
  | timerClear handle c hpc =>
    exact .of_armed (harmed.sublist List.filter_sublist) (by simp [hpc])
  | dispatcherThrew | jobOver | callbackOver | noJobs | putBack | noBindings | built =>
    exact .of_armed harmed (by simp)
  | drain | startupThrew | jobCap | runJob | answered | elapsed | noTimers | buildFailed | failed =>
    exact .of_armed (harmed.of_log rfl) (by simp)
  | dispatch | took => exact .of_armed { harmed.of_log rfl with } (by simp)
  | ready reply rest p answer log hpc hb ha hlog =>
    exact .of_armed { harmed.of_log (firings_polled hlog) with } (by simp)
  | await rest p log hpc hb ha hlog =>
    exact .of_armed { harmed.of_log (firings_polled hlog) with } (by simp)
  | overran =>
    exact .of_armed ((harmed.sublist (List.nil_sublist _)).of_log rfl) (by simp)
  | sleep pre t post next hpc ht hn =>
    obtain ⟨harmed, htaken⟩ := harmed.nextTimer ht hn
    refine ⟨harmed, fun u hu => ?_⟩
    cases hu
    exact htaken
  | fireLate pre t post next hpc ht hn hd hlt =>
    obtain ⟨harmed, htaken⟩ := harmed.nextTimer ht hn
    exact .of_armed (harmed.fire w.dispatches false htaken (Nat.le_of_lt hlt)) (by simp)
  | wake t hpc hle =>
    exact .of_armed (harmed.fire w.dispatches true (hw.asleep t hpc) hle) (by simp)

theorem Ordered.build (ops : Bool) (ms now : Nat) : Ordered (build ops ms now : Worker J) := by
  refine .of_armed ⟨?_, ?_, ?_, ?_, ?_⟩ ?_ <;> simp [Worker.build, HostSlots.default, firings]

/-- Over a whole run, timers fire in strictly increasing order of their due times and, at one
time, of their insertion. -/
theorem timers_fire_in_order (h : Reached crates w) :
    (firings w.log).reverse.Pairwise (· < ·) :=
  List.pairwise_reverse.mpr
    (h.inv Ordered.build fun _ _ _ hw hs => hw.step hs).armed.sorted

/-- an interval and a timeout set at one moment, and the interval's next turn -/
theorem timers_fire_in_order_interval :
    [toLex (0, 0), toLex (0, 1), toLex (1000000, 0)].Pairwise
      ((· < ·) : ℕ ×ₗ ℕ → ℕ ×ₗ ℕ → Prop) := by
  obtain ⟨w, hrun, hfired⟩ : ∃ w : Worker Unit,
      run (step Crates.bare) (build false 0 0)
        [.guest (.timerStart (.ofNat 1) .nan true), .guest (.timerStart (.ofNat 2) .nan false),
          .evalOver none, .drainJobs true, .popBinding none, .nextTimer, .wake,
          .evalOver none, .drainJobs true, .popBinding none, .nextTimer, .wake,
          .evalOver none, .drainJobs true, .popBinding none, .tick 2000000, .nextTimer] = some w ∧
      (firings w.log).reverse = [toLex (0, 0), toLex (0, 1), toLex (1000000, 0)] :=
    ⟨_, rfl, rfl⟩
  exact hfired ▸ timers_fire_in_order ⟨false, 0, 0, _, hrun⟩

end Worker

end NovaRuntime
