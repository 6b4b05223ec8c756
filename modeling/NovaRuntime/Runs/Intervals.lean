import NovaRuntime.Runs.TimerOrder
import NovaRuntime.Runs.TimerReach

/-!
# The beat of an interval

An interval is armed again from the time it was due, whenever its callback runs.

* `turnsOf`      the turns of one timer that fired, with the times at which they did;
* `Timer.turn`   where a turn belongs: a whole number of periods after the first;
* `NextTurn`     the timer is armed for the turn after those that were taken, or no longer;
* `OnBeat`       that and every turn so far, over a run;
* `intervals_keep_the_beat`   a timer fires on its beat and skips no turn, a timeout once.
-/

namespace NovaRuntime
open Lib

/-- the turns that fired of the timer with this insertion number, oldest first -/
def turnsOf (s : Nat) : List Obs → List (Timer × Nat)
  | [] => []
  | .fired t _ now _ :: log => if t.seq = s then turnsOf s log ++ [(t, now)] else turnsOf s log
  | _ :: log => turnsOf s log

/-- the timer at its turn `k` -/
def Timer.turn (t : Timer) (k : Nat) : Timer :=
  { t with due := t.due + k * (t.period.map Timer.again).getD 0 }

theorem Timer.turn_zero (t : Timer) : t.turn 0 = t := by
  cases t
  simp [Timer.turn]

theorem turnsOf_fired_self {t : Timer} {s : Nat} (h : t.seq = s) (n : Int) (now : Nat) (waited : Bool)
    (log : List Obs) :
    turnsOf s (.fired t n now waited :: log) = turnsOf s log ++ [(t, now)] := if_pos h

theorem turnsOf_fired_other {t : Timer} {s : Nat} (h : t.seq ≠ s) (n : Int) (now : Nat)
    (waited : Bool) (log : List Obs) :
    turnsOf s (.fired t n now waited :: log) = turnsOf s log := if_neg h

/-- Nothing fired that was not set. -/
theorem turnsOf_fresh {s : Nat} {log : List Obs} (h : ∀ k ∈ firings log, (ofLex k).2 < s) :
    turnsOf s log = [] := by
  induction log with
  | nil => rfl
  | cons e log ih =>
    cases e with
    | fired t n now waited =>
      obtain ⟨ht, hlog⟩ := List.forall_mem_cons.mp h
      rw [turnsOf_fired_other (Nat.ne_of_lt ht), ih hlog]
    | _ => exact ih h

/-- Arming an interval again takes it one turn on. -/
theorem rearm_turn {t : Timer} {n : Nat} {next : List Timer} (h : rearm (t.turn n) = some next) :
    t.period = none ∧ next = [] ∨ t.period ≠ none ∧ next = [t.turn (n + 1)] := by
  rcases rearm_cases h with ⟨hp, hnext⟩ | ⟨period, hp, hnext⟩
  · exact .inl ⟨hp, hnext⟩
  · have hp : t.period = some period := hp
    refine .inr ⟨by simp [hp], ?_⟩
    rw [hnext]
    simp only [Timer.turn, hp, Option.map_some, Option.getD_some, List.cons.injEq, and_true,
      Timer.mk.injEq, true_and]
    show t.due + n * Timer.again period + Timer.again period = t.due + (n + 1) * Timer.again period
    rw [Nat.succ_mul, Nat.add_assoc]

/-! ## the list of timers -/

/-- After `n` turns the timer is armed for the next one, or it was cleared; a timeout has only one. -/
structure NextTurn (t : Timer) (n : Nat) (ts : List Timer) : Prop where
  next : ∀ u ∈ ts, u.seq = t.seq → u = t.turn n
  once : t.period = none → 0 < n → n = 1 ∧ ∀ u ∈ ts, u.seq ≠ t.seq

namespace NextTurn
variable {t : Timer} {n : Nat} {ts : List Timer}

theorem subset (h : NextTurn t n ts) {ts' : List Timer} (hts : ∀ u ∈ ts', u ∈ ts) :
    NextTurn t n ts' where
  next := fun u hu => h.next u (hts u hu)
  once := fun hp hn => ⟨(h.once hp hn).1, fun u hu => (h.once hp hn).2 u (hts u hu)⟩

theorem start (h : NextTurn t n ts) {u : Timer} (hu : u.seq ≠ t.seq) : NextTurn t n (ts ++ [u]) where
  next := by
    intro v hv hseq
    rcases List.mem_append.mp hv with hv | hv
    · exact h.next v hv hseq
    · exact absurd (List.mem_singleton.mp hv ▸ hseq) hu
  once := by
    intro hp hn
    refine ⟨(h.once hp hn).1, fun v hv => ?_⟩
    rcases List.mem_append.mp hv with hv | hv
    · exact (h.once hp hn).2 v hv
    · exact List.mem_singleton.mp hv ▸ hu

variable {pre post next : List Timer} {u : Timer}

theorem other (h : NextTurn t n (pre ++ u :: post)) (hu : u.seq ≠ t.seq) (hn : rearm u = some next) :
    NextTurn t n (pre ++ next ++ post) := by
  have hnext : ∀ v ∈ next, v.seq ≠ t.seq := by
    rcases rearm_cases hn with ⟨-, rfl⟩ | ⟨period, -, rfl⟩
    · simp
    · intro v hv
      rw [List.mem_singleton.mp hv]
      exact hu
  have hmem : ∀ v ∈ pre ++ next ++ post, v ∈ pre ++ u :: post ∨ v.seq ≠ t.seq := by
    intro v hv
    rcases List.mem_append.mp hv with hv | hv
    · rcases List.mem_append.mp hv with hv | hv
      · exact .inl (List.mem_append_left _ hv)
      · exact .inr (hnext v hv)
    · exact .inl (List.mem_append_right _ (List.mem_cons_of_mem _ hv))
  refine ⟨fun v hv hseq => ?_, fun hp hpos => ⟨(h.once hp hpos).1, fun v hv => ?_⟩⟩
  · rcases hmem v hv with hv | hne
    · exact h.next v hv hseq
    · exact absurd hseq hne
  · rcases hmem v hv with hv | hne
    · exact (h.once hp hpos).2 v hv
    · exact hne

theorem take (h : NextTurn t n (pre ++ u :: post)) (hu : u.seq = t.seq) (hn : rearm u = some next)
    (hdist : (pre ++ u :: post).Pairwise fun t u => t.seq ≠ u.seq) :
    u = t.turn n ∧ NextTurn t (n + 1) (pre ++ next ++ post) := by
  have hturn : u = t.turn n := h.next u (List.mem_append_right _ List.mem_cons_self) hu
  refine ⟨hturn, ?_⟩
  have hside : ∀ v ∈ pre ++ post, v.seq ≠ t.seq := by
    intro v hv
    obtain ⟨-, hpost, hpre⟩ := List.pairwise_append.mp hdist
    rw [← hu]
    rcases List.mem_append.mp hv with hv | hv
    · exact hpre v hv u List.mem_cons_self
    · exact ((List.pairwise_cons.mp hpost).1 v hv).symm
  have hmem : ∀ v ∈ pre ++ next ++ post, v.seq = t.seq → v ∈ next := by
    intro v hv hseq
    rcases List.mem_append.mp hv with hv | hv
    · rcases List.mem_append.mp hv with hv | hv
      · exact absurd hseq (hside v (List.mem_append_left _ hv))
      · exact hv
    · exact absurd hseq (hside v (List.mem_append_right _ hv))
  rw [hturn] at hn
  rcases rearm_turn hn with ⟨hp, rfl⟩ | ⟨hp, rfl⟩
  · refine ⟨fun v hv hseq => absurd (hmem v hv hseq) List.not_mem_nil, fun _ _ => ⟨?_, ?_⟩⟩
    · -- a second turn would have needed a timer that is still armed
      by_contra hne
      have hpos : 0 < n := by omega
      exact (h.once hp hpos).2 u (List.mem_append_right _ List.mem_cons_self) hu
    · exact fun v hv hseq => absurd (hmem v hv hseq) List.not_mem_nil
  · exact ⟨fun v hv hseq => List.mem_singleton.mp (hmem v hv hseq), fun hnone => absurd hnone hp⟩

end NextTurn

namespace Worker
variable {J : Type} {crates : Crates} {w w' : Worker J} {t : Timer}

/-! ## over a run -/

/-- the turns that were taken: those that fired, and the one that the drain sleeps for -/
def taken (t : Timer) (w : Worker J) : Nat :=
  (turnsOf t.seq w.log).length +
    match w.pc with
    | .sleeping u => if u.seq = t.seq then 1 else 0
    | _ => 0

theorem length_le_taken (t : Timer) (w : Worker J) :
    (turnsOf t.seq w.log).length ≤ taken t w := Nat.le_add_right _ _

/-- Every turn of the timer so far was on its beat, and so is the next. -/
structure OnBeat (t : Timer) (w : Worker J) : Prop where
  old : t.seq < w.slots.timerSeq
  turns : ∀ k e, (turnsOf t.seq w.log)[k]? = some e → e.1 = t.turn k ∧ e.1.due ≤ e.2
  due : NextTurn t (taken t w) w.slots.timers
  asleep : ∀ u, w.pc = .sleeping u → u.seq = t.seq → u = t.turn (turnsOf t.seq w.log).length

theorem taken_awake (h : ∀ u, w.pc ≠ .sleeping u) : taken t w = (turnsOf t.seq w.log).length := by
  unfold taken
  cases hpc : w.pc with
  | sleeping u => exact absurd hpc (h u)
  | _ => rfl

namespace OnBeat

theorem awake (hold : t.seq < w.slots.timerSeq)
    (hturns : ∀ k e, (turnsOf t.seq w.log)[k]? = some e → e.1 = t.turn k ∧ e.1.due ≤ e.2)
    (hdue : NextTurn t (turnsOf t.seq w.log).length w.slots.timers) (hpc : ∀ u, w.pc ≠ .sleeping u) :
    OnBeat t w :=
  ⟨hold, hturns, taken_awake (t := t) hpc ▸ hdue, fun u hu => absurd hu (hpc u)⟩

/-- a step at which no timer fires, is taken or is set -/
theorem calm (h : OnBeat t w) (hpc : ∀ u, w.pc ≠ .sleeping u) (hpc' : ∀ u, w'.pc ≠ .sleeping u)
    (hseq : w.slots.timerSeq ≤ w'.slots.timerSeq)
    (hts : ∀ u ∈ w'.slots.timers, u ∈ w.slots.timers)
    (hlog : turnsOf t.seq w'.log = turnsOf t.seq w.log) : OnBeat t w' := by
  have hdue := h.due
  rw [taken_awake hpc] at hdue
  refine awake (Nat.lt_of_lt_of_le h.old hseq) ?_ ?_ hpc'
  · rw [hlog]
    exact h.turns
  · rw [hlog]
    exact hdue.subset hts

/-- One more turn is logged, at its time or later. -/
theorem turns_fired {log : List Obs} {u : Timer} {now : Nat}
    (hturns : ∀ k e, (turnsOf t.seq log)[k]? = some e → e.1 = t.turn k ∧ e.1.due ≤ e.2)
    (hu : u.seq = t.seq → u = t.turn (turnsOf t.seq log).length) (hle : u.due ≤ now) (n : Int)
    (waited : Bool) : ∀ k e, (turnsOf t.seq (.fired u n now waited :: log))[k]? = some e →
      e.1 = t.turn k ∧ e.1.due ≤ e.2 := by
  intro k e he
  by_cases hseq : u.seq = t.seq
  · rw [turnsOf_fired_self hseq] at he
    rcases Nat.lt_or_ge k (turnsOf t.seq log).length with hk | hk
    · rw [List.getElem?_append_left hk] at he
      exact hturns k e he
    · rw [List.getElem?_append_right hk, List.getElem?_singleton] at he
      split at he
      · next hzero =>
        obtain rfl : k = (turnsOf t.seq log).length := by omega
        cases he
        exact ⟨hu hseq, hle⟩
      · cases he
  · rw [turnsOf_fired_other hseq] at he
    exact hturns k e he

theorem length_fired {log : List Obs} {u : Timer} (n : Int) (now : Nat) (waited : Bool) :
    (turnsOf t.seq (.fired u n now waited :: log)).length =
      (turnsOf t.seq log).length + if u.seq = t.seq then 1 else 0 := by
  by_cases hseq : u.seq = t.seq
  · rw [turnsOf_fired_self hseq, List.length_append, if_pos hseq]
    rfl
  · rw [turnsOf_fired_other hseq, if_neg hseq, Nat.add_zero]

theorem nextTimer {pre post next : List Timer} {u : Timer} (hw : Ordered w) (h : OnBeat t w)
    (hpc : ∀ v, w.pc ≠ .sleeping v) (hts : firstDue w.slots.timers = some (pre, u, post))
    (hn : rearm u = some next) :
    (u.seq = t.seq → u = t.turn (turnsOf t.seq w.log).length) ∧
      NextTurn t ((turnsOf t.seq w.log).length + if u.seq = t.seq then 1 else 0)
        (pre ++ next ++ post) := by
  have hdue := h.due
  have hdist := hw.armed.distinct
  rw [taken_awake hpc, (firstDue_spec hts).1] at hdue
  rw [(firstDue_spec hts).1] at hdist
  by_cases hseq : u.seq = t.seq
  · rw [if_pos hseq]
    exact (hdue.take hseq hn hdist).imp_left fun hturn _ => hturn
  · rw [if_neg hseq]
    exact ⟨fun heq => absurd heq hseq, hdue.other hseq hn⟩

theorem step {a : Act J} (hw : Ordered w) (h : OnBeat t w) (hs : step crates w a = some w') :
    OnBeat t w' := by
  have hsame : ∀ u ∈ w.slots.timers, u ∈ w.slots.timers := fun _ hu => hu
  cases step_cases hs with
  | tick d => exact ⟨h.old, h.turns, h.due, h.asleep⟩
  | enqueue _ _ hpc | respondMatch _ _ hpc | respondThrows _ _ _ hpc | abort hpc
  | respondOther _ _ hpc | refuse _ _ hpc | respondPayload _ _ _ _ hpc
  | binding _ _ _ _ _ _ hpc =>
    exact h.calm (by simp [hpc]) (by simp [hpc]) (le_refl _) hsame rfl
  | timerClear handle c hpc =>
    exact h.calm (by simp [hpc]) (by simp [hpc]) (le_refl _) (fun u => List.mem_of_mem_filter) rfl
  | timerStart handle delay repeating d due c hpc hd hdue =>
    have hpc : ∀ u, w.pc ≠ .sleeping u := by simp [hpc]
    have harmed := h.due
    rw [taken_awake hpc] at harmed
    exact awake (Nat.lt_succ_of_lt h.old) h.turns (harmed.start (Nat.ne_of_gt h.old)) hpc
  | drain _ _ hpc | startupThrew _ hpc | dispatcherThrew _ hpc | jobOver _ _ _ hpc
  | callbackOver _ _ hpc | noJobs _ _ hpc | jobCap _ hpc | runJob _ _ _ hpc | putBack _ _ _ hpc
  | noBindings _ hpc | answered _ _ _ hpc | elapsed _ _ hpc | noTimers hpc | dispatch _ _ hpc
  | buildFailed _ hpc | built hpc | failed _ hpc | took hpc =>
    exact h.calm (by simp [hpc]) (by simp) (le_refl _) hsame rfl
  | ready reply rest p answer log hpc hb ha hlog | await rest p log hpc hb ha hlog =>
    refine h.calm (by simp [hpc]) (by simp) (le_refl _) hsame ?_
    rw [hlog]
    split <;> rfl
  | overran pre u post next deadline hpc =>
    exact h.calm (by simp [hpc]) (by simp) (le_refl _) (by simp) rfl
  | sleep pre u post next hpc hts hn =>
    obtain ⟨hturn, hdue⟩ := nextTimer hw h (by simp [hpc]) hts hn
    refine ⟨h.old, h.turns, hdue, fun v hv hseq => ?_⟩
    cases hv
    exact hturn hseq
  | fireLate pre u post next hpc hts hn hd hlt =>
    obtain ⟨hturn, hdue⟩ := nextTimer hw h (by simp [hpc]) hts hn
    refine awake h.old (turns_fired h.turns hturn (Nat.le_of_lt hlt) _ _) ?_ (by simp)
    rw [length_fired]
    exact hdue
  | wake u hpc hle =>
    have hdue := h.due
    refine awake h.old (turns_fired h.turns (h.asleep u hpc) hle _ _) ?_ (by simp)
    rw [length_fired]
    rw [taken, hpc] at hdue
    exact hdue

end OnBeat

theorem OnBeat.start (hw : Ordered w) (handle : F64) (due : Nat) (period : Option Nat)
    {set : Worker J} (hpc : ∀ u, set.pc ≠ .sleeping u) (hlog : set.log = w.log)
    (hseq : set.slots.timerSeq = w.slots.timerSeq + 1)
    (hts : set.slots.timers =
      w.slots.timers ++ [⟨handle, due, period, w.slots.timerSeq, w.dispatches⟩]) :
    OnBeat ⟨handle, due, period, w.slots.timerSeq, w.dispatches⟩ set := by
  have hnone : turnsOf w.slots.timerSeq set.log = [] := by
    rw [hlog]
    exact turnsOf_fresh fun k hk => (hw.armed.past k hk).2
  refine .awake (hseq ▸ Nat.lt_succ_self _) ?_ ?_ hpc
  · intro k e he
    rw [hnone] at he
    cases he
  · rw [hnone, hts]
    refine ⟨fun u hu hu' => ?_, fun _ hpos => absurd hpos (Nat.lt_irrefl 0)⟩
    rcases List.mem_append.mp hu with hu | hu
    · exact absurd hu' (Nat.ne_of_lt (hw.armed.fresh u hu))
    · rw [List.mem_singleton.mp hu]
      exact (Timer.turn_zero _).symm

/-- A timeout fires no second time. -/
theorem OnBeat.at_most_once (h : OnBeat t w) (hp : t.period = none) :
    (turnsOf t.seq w.log).length ≤ 1 := by
  have htaken := length_le_taken t w
  rcases Nat.eq_zero_or_pos (taken t w) with hzero | hpos
  · omega
  · have hone := (h.due.once hp hpos).1
    omega

/-- However late the callbacks run, a timer fires at its first time and then at every whole number of
periods after it, without a turn left out, until it is cleared; a timeout fires at most once. -/
theorem intervals_keep_the_beat {handle delay : F64} {repeating : Bool} {acts : List (Act J)}
    {set : Worker J} (h : Reached crates w)
    (hset : Worker.step crates w (.guest (.timerStart handle delay repeating)) = some set)
    (hrun : run (Worker.step crates) set acts = some w') :
    ∃ d, HostSlots.delayOf delay = some d ∧
      (∀ k e, (turnsOf w.slots.timerSeq w'.log)[k]? = some e →
        e.1.handle = handle ∧ e.1.due = w.now + d + k * Timer.again d ∧ e.1.due ≤ e.2) ∧
      (repeating = false → (turnsOf w.slots.timerSeq w'.log).length ≤ 1) ∧
      ∀ u ∈ w'.slots.timers, u.seq = w.slots.timerSeq → (∀ v, w'.pc ≠ .sleeping v) →
        u.due = w.now + d + (turnsOf w.slots.timerSeq w'.log).length * Timer.again d := by
  have hw : Ordered w := h.inv Ordered.build fun _ _ _ hw hs => hw.step hs
  cases step_cases hset with
  | timerStart _ _ _ d due c hpc hd hdue =>
    obtain rfl := addDuration_eq hdue
    have hstart : OnBeat ⟨handle, w.now + d, if repeating then some d else none,
        w.slots.timerSeq, w.dispatches⟩ { w with slots := { w.slots with
          timerSeq := w.slots.timerSeq + 1
          timers := w.slots.timers ++ [⟨handle, w.now + d, if repeating then some d else none,
            w.slots.timerSeq, w.dispatches⟩] } } :=
      .start hw handle (w.now + d) _ (by simp [hpc]) rfl rfl rfl
    have hinv := run_inv (Worker.step crates)
      (P := fun w' => Ordered w' ∧ OnBeat ⟨handle, w.now + d, if repeating then some d else none,
        w.slots.timerSeq, w.dispatches⟩ w')
      (fun _ _ _ hp hs => ⟨hp.1.step hs, hp.2.step hp.1 hs⟩) ⟨hw.step hset, hstart⟩ hrun
    obtain ⟨-, hbeat⟩ := hinv
    have hlength : repeating = false → (turnsOf w.slots.timerSeq w'.log).length ≤ 1 := by
      rintro rfl
      exact hbeat.at_most_once rfl
    -- a timeout has no second turn, so that the period of a turn does not matter
    have hperiod : ∀ k, (repeating = false → k = 0) →
        k * ((if repeating then some d else none).map Timer.again).getD 0 = k * Timer.again d := by
      intro k hk
      cases repeating with
      | true => rfl
      | false => rw [hk rfl, Nat.zero_mul, Nat.zero_mul]
    refine ⟨d, hd, fun k e he => ?_, hlength, fun u hu hseq hawake => ?_⟩
    · obtain ⟨hturn, hle⟩ := hbeat.turns k e he
      refine ⟨by rw [hturn]; rfl, ?_, hle⟩
      rw [hturn]
      refine congrArg (w.now + d + ·) (hperiod k fun hone => ?_)
      have hk := (List.getElem?_eq_some_iff.mp he).1
      have hlen := hlength hone
      omega
    · have hnext := hbeat.due
      rw [taken_awake hawake] at hnext
      rw [hnext.next u hu hseq]
      refine congrArg (w.now + d + ·) (hperiod _ fun hone => ?_)
      subst hone
      by_contra hpos
      exact (hnext.once rfl (Nat.pos_of_ne_zero hpos)).2 u hu hseq

/-- an interval whose first callback is late: the next turns are due as if it had not been -/
def lateTurns : List (Act Unit) :=
  [.evalOver none, .drainJobs true, .popBinding none, .nextTimer, .tick 2500000, .wake,
    .evalOver none, .drainJobs true, .popBinding none, .nextTimer, .evalOver none,
    .drainJobs true, .popBinding none]

theorem intervals_keep_the_beat_late : ∃ set w' : Worker Unit,
    Worker.step .bare (build false 0 0) (.guest (.timerStart (.ofNat 1) .nan true)) = some set ∧
      run (Worker.step .bare) set lateTurns = some w' ∧ w'.now = 2500000 ∧
      ∀ u ∈ w'.slots.timers, u.seq = 0 → u.due = 2000000 := by
  obtain ⟨set, w', hset, hrun, hnow, hlength, hpc⟩ : ∃ set w' : Worker Unit,
      Worker.step .bare (build false 0 0) (.guest (.timerStart (.ofNat 1) .nan true)) = some set ∧
      run (Worker.step .bare) set lateTurns = some w' ∧ w'.now = 2500000 ∧
      (turnsOf 0 w'.log).length = 2 ∧ w'.pc = .timers := ⟨_, _, rfl, rfl, rfl, rfl, rfl⟩
  obtain ⟨d, hd, -, -, hnext⟩ := intervals_keep_the_beat ⟨false, 0, 0, [], rfl⟩ hset hrun
  cases hd
  refine ⟨set, w', hset, hrun, hnow, fun u hu hseq => ?_⟩
  have hdue := hnext u hu hseq (by simp [hpc])
  rw [show (build false 0 0 : Worker Unit).slots.timerSeq = 0 from rfl, hlength] at hdue
  exact hdue

end Worker

end NovaRuntime
