import NovaRuntime.Host.Step

/-!
# The order in which binding calls reach the handler

The drain takes the last call of the queue first.  `takesOldest` is the condition under which that
makes no difference; over a run, the calls reach the operations handler in the order they were made
exactly when every step meets it.

* `InOrder`      the order, read off the log;
* `takesOldest`  the condition on one step;
* `Queued`       the queue holds the calls that the handler has not been asked for, oldest first.
-/

namespace NovaRuntime
open Lib

/-- The handler is asked for a call after it was asked for every earlier one that asks it. -/
def Follows : Obs → List Obs → Prop
  | .invoked b, earlier => ∀ a < b, .called a true ∈ earlier → .invoked a ∈ earlier
  | _, _ => True

def InOrder (log : List Obs) : Prop := Logged Follows log

/-- an entry about anything but calls and the handler -/
def Silent : Obs → Prop
  | .called _ _ | .invoked _ => False
  | _ => True

theorem inOrder_called {a : Nat} {asks : Bool} {log : List Obs} :
    InOrder (.called a asks :: log) ↔ InOrder log :=
  and_iff_right trivial

theorem inOrder_silent {e : Obs} {log : List Obs} (he : Silent e) :
    InOrder (e :: log) ↔ InOrder log := by
  refine and_iff_right ?_
  cases e with
  | invoked b => exact he.elim
  | _ => trivial

/-! ## the queue -/

/-- The queue is in the order of the calls.  A call that asks the handler waits in it until the
handler is asked, and not after that. -/
structure Queued (bindings : List Pending) (calls : Nat) (log : List Obs) : Prop where
  sorted : bindings.Pairwise fun p q => p.call < q.call
  fresh : ∀ p ∈ bindings, p.call < calls
  called : ∀ p ∈ bindings, p.answer.asks = true → .called p.call true ∈ log
  waits : ∀ a, .called a true ∈ log → .invoked a ∉ log →
    ∃ p ∈ bindings, p.call = a ∧ p.answer.asks = true
  asked : ∀ p ∈ bindings, .invoked p.call ∉ log
  past : ∀ a, .invoked a ∈ log → a < calls

namespace Queued
variable {bindings rest : List Pending} {calls : Nat} {log : List Obs} {e : Obs} {p : Pending}

theorem silent (h : Queued bindings calls log) (he : Silent e) :
    Queued bindings calls (e :: log) where
  sorted := h.sorted
  fresh := h.fresh
  called := fun p hp hasks => List.mem_cons_of_mem _ (h.called p hp hasks)
  waits := by
    intro a hcalled hinvoked
    rcases List.mem_cons.mp hcalled with rfl | hcalled
    · exact he.elim
    · exact h.waits a hcalled fun hmem => hinvoked (List.mem_cons_of_mem _ hmem)
  asked := by
    intro p hp hmem
    rcases List.mem_cons.mp hmem with rfl | hmem
    · exact he.elim
    · exact h.asked p hp hmem
  past := by
    intro a hmem
    rcases List.mem_cons.mp hmem with rfl | hmem
    · exact he.elim
    · exact h.past a hmem

theorem call (h : Queued bindings calls log) (id : F64) (answer : Answer) (origin : Int) :
    Queued (bindings ++ [⟨id, answer, calls, origin⟩]) (calls + 1)
      (.called calls answer.asks :: log) where
  sorted := by
    refine List.pairwise_append.mpr ⟨h.sorted, List.pairwise_singleton _ _, ?_⟩
    intro p hp q hq
    rw [List.mem_singleton.mp hq]
    exact h.fresh p hp
  fresh := by
    intro p hp
    rcases List.mem_append.mp hp with hp | hp
    · exact Nat.lt_succ_of_lt (h.fresh p hp)
    · rw [List.mem_singleton.mp hp]
      exact Nat.lt_succ_self _
  called := by
    intro p hp hasks
    rcases List.mem_append.mp hp with hp | hp
    · exact List.mem_cons_of_mem _ (h.called p hp hasks)
    · rw [List.mem_singleton.mp hp] at hasks ⊢
      have hasks : answer.asks = true := hasks
      rw [hasks]
      exact List.mem_cons_self
  waits := by
    intro a hcalled hinvoked
    rcases List.mem_cons.mp hcalled with heq | hcalled
    · obtain ⟨rfl, hasks⟩ := Obs.called.inj heq
      exact ⟨_, List.mem_append_right _ List.mem_cons_self, rfl, hasks.symm⟩
    · obtain ⟨p, hp, ha⟩ := h.waits a hcalled fun hmem => hinvoked (List.mem_cons_of_mem _ hmem)
      exact ⟨p, List.mem_append_left _ hp, ha⟩
  asked := by
    intro p hp hmem
    rcases List.mem_cons.mp hmem with heq | hmem
    · cases heq
    · rcases List.mem_append.mp hp with hp | hp
      · exact h.asked p hp hmem
      · rw [List.mem_singleton.mp hp] at hmem
        exact absurd (h.past calls hmem) (lt_irrefl _)
  past := by
    intro a hmem
    rcases List.mem_cons.mp hmem with heq | hmem
    · cases heq
    · exact Nat.lt_succ_of_lt (h.past a hmem)

theorem last_lt (h : Queued (rest ++ [p]) calls log) : ∀ q ∈ rest, q.call < p.call :=
  fun q hq => (List.pairwise_append.mp h.sorted).2.2 q hq p List.mem_cons_self

/-- the last call is taken; the handler is asked if the call asks it -/
theorem take (h : Queued (rest ++ [p]) calls log) :
    Queued rest calls (if p.answer.asks then .invoked p.call :: log else log) := by
  have hrest : rest.Sublist (rest ++ [p]) := List.sublist_append_left _ _
  have hne : ∀ q ∈ rest, q.call ≠ p.call := fun q hq => Nat.ne_of_lt (h.last_lt q hq)
  by_cases hasks : p.answer.asks = true
  · rw [if_pos hasks]
    refine ⟨h.sorted.sublist hrest, fun q hq => h.fresh q (hrest.subset hq), fun q hq hq' =>
      List.mem_cons_of_mem _ (h.called q (hrest.subset hq) hq'), ?_, ?_, ?_⟩
    · intro a hcalled hinvoked
      have hcalled : .called a true ∈ log := by simpa using hcalled
      obtain ⟨q, hq, rfl, hq'⟩ :=
        h.waits a hcalled fun hmem => hinvoked (List.mem_cons_of_mem _ hmem)
      rcases List.mem_append.mp hq with hq | hq
      · exact ⟨q, hq, rfl, hq'⟩
      · rw [List.mem_singleton.mp hq] at hinvoked
        exact absurd List.mem_cons_self hinvoked
    · intro q hq hmem
      rcases List.mem_cons.mp hmem with heq | hmem
      · exact hne q hq (Obs.invoked.inj heq)
      · exact h.asked q (hrest.subset hq) hmem
    · intro a hmem
      rcases List.mem_cons.mp hmem with heq | hmem
      · cases heq
        exact h.fresh p (by simp)
      · exact h.past a hmem
  · rw [if_neg hasks]
    refine ⟨h.sorted.sublist hrest, fun q hq => h.fresh q (hrest.subset hq), fun q hq hq' =>
      h.called q (hrest.subset hq) hq', ?_, fun q hq => h.asked q (hrest.subset hq), h.past⟩
    intro a hcalled hinvoked
    obtain ⟨q, hq, ha, hq'⟩ := h.waits a hcalled hinvoked
    rcases List.mem_append.mp hq with hq | hq
    · exact ⟨q, hq, ha, hq'⟩
    · rw [List.mem_singleton.mp hq] at hq'
      exact absurd hq' hasks

/-- Taking the last call keeps the order exactly if it asks nothing of the handler, or no other
queued call does. -/
theorem take_inOrder (h : Queued (rest ++ [p]) calls log) :
    InOrder (if p.answer.asks then .invoked p.call :: log else log) ↔
      InOrder log ∧ (p.answer.asks = true → ∀ q ∈ rest, q.answer.asks = false) := by
  by_cases hasks : p.answer.asks = true
  · rw [if_pos hasks]
    refine and_comm.trans (and_congr_right fun _ => ⟨fun hb _ q hq => ?_, fun hb a hab hcalled => ?_⟩)
    · rw [← Bool.not_eq_true]
      intro hq'
      have hq'' : q ∈ rest ++ [p] := List.mem_append_left _ hq
      exact h.asked q hq'' (hb q.call (h.last_lt q hq) (h.called q hq'' hq'))
    · by_contra hinvoked
      obtain ⟨q, hq, rfl, hq'⟩ := h.waits a hcalled hinvoked
      rcases List.mem_append.mp hq with hq | hq
      · rw [hb hasks q hq] at hq'
        cases hq'
      · rw [List.mem_singleton.mp hq] at hab
        exact lt_irrefl _ hab
  · rw [if_neg hasks]
    exact (and_iff_left fun hasks' => absurd hasks' hasks).symm

end Queued

namespace Worker
variable {J : Type} {crates : Crates} {w w' : Worker J}

/-- If the call that the drain takes asks the operations handler, no other queued call does. -/
def takesOldest (w : Worker J) : Act J → Bool
  | .popBinding _ =>
    match w.slots.bindings.getLast? with
    | some p => p.answer.asks → ∀ q ∈ w.slots.bindings.dropLast, q.answer.asks = false
    | none => true
  | _ => true

def HasQueue (w : Worker J) : Prop := Queued w.slots.bindings w.calls w.log

theorem takesOldest_concat {rest : List Pending} {p : Pending} {reply : Option Reply}
    (hb : w.slots.bindings = rest ++ [p]) : takesOldest w (.popBinding reply) = true ↔
      (p.answer.asks = true → ∀ q ∈ rest, q.answer.asks = false) := by
  simp only [takesOldest, hb, List.getLast?_concat, List.dropLast_concat, decide_eq_true_eq]

theorem step_hasQueue {a : Act J} (hw : HasQueue w) (h : step crates w a = some w') :
    HasQueue w' := by
  unfold HasQueue at hw
  cases step_cases h with
  | binding id kind name params answer => exact hw.call id answer _
  | ready reply rest p answer log hpc hb ha hlog =>
    rw [hb] at hw
    exact (hlog ▸ hw.take).silent trivial
  | await rest p log hpc hb ha hlog =>
    rw [hb] at hw
    exact hlog ▸ hw.take
  | tick | enqueue | respondMatch | respondThrows | timerStart | timerClear | dispatcherThrew
  | jobOver | callbackOver | noJobs | putBack | noBindings | sleep | built
  | abort => exact hw
  | overran pre t => exact (hw.silent (e := .overran t _) trivial).silent trivial
  | _ => exact hw.silent trivial

theorem step_inOrder_iff {a : Act J} (hw : HasQueue w) (h : step crates w a = some w') :
    InOrder w'.log ↔ InOrder w.log ∧ takesOldest w a = true := by
  unfold HasQueue at hw
  cases step_cases h with
  | noBindings reply hpc hb => simp [takesOldest, hb]
  | ready reply rest p answer log hpc hb ha hlog =>
    rw [takesOldest_concat hb, hlog]
    rw [hb] at hw
    refine (inOrder_silent ?_).trans hw.take_inOrder
    trivial
  | await rest p log hpc hb ha hlog =>
    rw [takesOldest_concat hb, hlog]
    rw [hb] at hw
    exact hw.take_inOrder
  | binding => exact inOrder_called.trans (and_iff_left rfl).symm
  | tick | enqueue | respondMatch | respondThrows | timerStart | timerClear | dispatcherThrew
  | jobOver | callbackOver | noJobs | putBack | sleep | built | abort =>
    exact (and_iff_left rfl).symm
  | overran pre t =>
    refine (inOrder_silent ?_).trans ((inOrder_silent ?_).trans (and_iff_left rfl).symm)
    · trivial
    · trivial
  | _ =>
    refine (inOrder_silent ?_).trans (and_iff_left rfl).symm
    trivial

theorem HasQueue.build (ops : Bool) (ms now : Nat) : HasQueue (build ops ms now : Worker J) := by
  constructor <;> simp [Worker.build, HostSlots.default]

/-- Over a run, the calls reach the operations handler in the order they were made exactly when
the drain never takes a call while another that asks the handler is queued. -/
theorem calls_in_order_iff {ops : Bool} {ms now : Nat} {acts : List (Act J)}
    (h : run (step crates) (Worker.build ops ms now) acts = some w) :
    InOrder w.log ↔
      Meets (step crates) (fun w a => takesOldest w a = true) (Worker.build ops ms now) acts := by
  refine run_iff_meets (step crates) (A := fun _ _ => True) (I := HasQueue)
    (Q := fun w => InOrder w.log) (fun _ _ _ hw _ hs => step_hasQueue hw hs)
    (fun _ _ _ hw _ hs => step_inOrder_iff hw hs) (HasQueue.build ops ms now) ?_ ?_ h
  · trivial
  · exact meets_of_forall (step crates) (fun _ _ => trivial) _ _

/-- a query, and a second one made when the first was answered -/
theorem calls_in_order_one_by_one : ∃ w : Worker Unit,
    run (step Crates.bare) (Worker.build true 0 0)
      [.guest (.binding (.ofNat 1) (txt "query") (txt "DB") (txt "\x7b\"sql\":\"x\"\x7d")),
        .evalOver none, .drainJobs true, .popBinding (some (.database (.error []))),
        .guest (.binding (.ofNat 2) (txt "query") (txt "DB") (txt "\x7b\"sql\":\"y\"\x7d")),
        .evalOver none, .drainJobs true, .popBinding none] = some w ∧ InOrder w.log := by
  obtain ⟨w, hrun⟩ := Option.isSome_iff_exists.mp (show (run (step Crates.bare)
      (Worker.build true 0 0 : Worker Unit)
      [.guest (.binding (.ofNat 1) (txt "query") (txt "DB") (txt "\x7b\"sql\":\"x\"\x7d")),
        .evalOver none, .drainJobs true, .popBinding (some (.database (.error []))),
        .guest (.binding (.ofNat 2) (txt "query") (txt "DB") (txt "\x7b\"sql\":\"y\"\x7d")),
        .evalOver none, .drainJobs true, .popBinding none]).isSome = true by decide +kernel)
  exact ⟨w, hrun, (calls_in_order_iff hrun).mpr (by decide +kernel)⟩

/-- the second call, and not the first, has reached the handler -/
def overtaken : List Obs → Bool
  | [.invoked 1, .draining 0, .called 1 true, .called 0 true] => true
  | _ => false

/-- Two queries made without awaiting the first: the handler is asked for the second first. -/
theorem second_call_overtakes : ¬ ∀ w : Worker Unit, Reached Crates.bare w → InOrder w.log := by
  intro hall
  obtain ⟨w, hrun, hlog⟩ := (Option.any_eq_true _ _).mp (show (run (step Crates.bare)
      (Worker.build true 0 0 : Worker Unit)
      [.guest (.binding (.ofNat 1) (txt "query") (txt "DB") (txt "\x7b\"sql\":\"x\"\x7d")),
        .guest (.binding (.ofNat 2) (txt "query") (txt "DB") (txt "\x7b\"sql\":\"y\"\x7d")),
        .evalOver none, .drainJobs true, .popBinding none]).any
      (fun w => overtaken w.log) = true by decide +kernel)
  have horder := hall w ⟨true, 0, 0, _, hrun⟩
  unfold overtaken at hlog
  split at hlog
  · next heq =>
    rw [heq] at horder
    have hmem := horder.1 0 (by decide) (by simp)
    simp at hmem
  · cases hlog

end Worker

end NovaRuntime
