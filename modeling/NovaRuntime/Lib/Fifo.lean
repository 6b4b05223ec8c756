import Mathlib.Data.List.Range
import Mathlib.Data.List.Nodup

/-!
# A first-in first-out queue that grows while it is served

The item at the front is done, and brings a list of further items to the back, or it is not, and goes
to the back itself.

* `Entry`, `number`   items with their numbers, in the order of their arrival;
* `Line`              a queue with its history;
* `pop`, `pops`       one turn, and a number of them;
* `EmptiedWithin`     a number of turns is enough;
* `Sound`             how the history of a line hangs together; `pops_sound`, it does after any turns;
* `Sound.all_done`, `Sound.done_nodup`   no item is done twice, and when the queue is empty each one
                      is.
-/

namespace Lib
namespace Fifo
variable {σ α : Type*}

structure Entry (α : Type*) where
  /-- how many items arrived before -/
  number : Nat
  item : α

/-- what comes of the item at the front -/
inductive Served (σ α : Type*) where
  | unfinished (state : σ)
  | done (state : σ) (more : List α)

/-- these items, after so many others -/
def number (n : Nat) : List α → List (Entry α)
  | [] => []
  | x :: xs => ⟨n, x⟩ :: number (n + 1) xs

structure Line (σ α : Type*) where
  state : σ
  queue : List (Entry α)
  /-- every item that arrived -/
  arrived : List (Entry α)
  /-- what was put at the back: the items that arrived, and those that were put back -/
  pushed : List (Entry α)
  /-- what reached the front, and whether it was done there -/
  popped : List (Entry α × Bool)
  done : List (Entry α)

namespace Line

def start (state : σ) (items : List α) : Line σ α where
  state := state
  queue := number 0 items
  arrived := number 0 items
  pushed := number 0 items
  popped := []
  done := []

/-- the front goes to the back -/
def putBack (l : Line σ α) (state : σ) (e : Entry α) (rest : List (Entry α)) : Line σ α :=
  { l with
    state := state
    queue := rest ++ [e]
    pushed := l.pushed ++ [e]
    popped := l.popped ++ [(e, false)] }

def finish (l : Line σ α) (state : σ) (e : Entry α) (rest : List (Entry α)) (more : List α) :
    Line σ α where
  state := state
  queue := rest ++ number l.arrived.length more
  arrived := l.arrived ++ number l.arrived.length more
  pushed := l.pushed ++ number l.arrived.length more
  popped := l.popped ++ [(e, true)]
  done := l.done ++ [e]

end Line

section
variable (serve : σ → α → Served σ α)

/-- one turn; there is none when the queue is empty -/
def pop (l : Line σ α) : Option (Line σ α) :=
  match l.queue with
  | [] => none
  | e :: rest =>
    match serve l.state e.item with
    | .unfinished state => some (l.putBack state e rest)
    | .done state more => some (l.finish state e rest more)

def pops : Nat → Line σ α → Option (Line σ α)
  | 0, l => some l
  | n + 1, l => (pop serve l).bind (pops n)

/-- the queue is empty after some number of turns up to `n` -/
def EmptiedWithin (n : Nat) (l : Line σ α) : Prop :=
  ∃ k ≤ n, ∃ l', pops serve k l = some l' ∧ l'.queue = []

end

/-! ## numbers -/

theorem number_length (n : Nat) (items : List α) : (number n items).length = items.length := by
  induction items generalizing n with
  | nil => rfl
  | cons x xs ih =>
    show (number (n + 1) xs).length + 1 = _
    rw [ih]
    rfl

theorem number_numbers (n : Nat) (items : List α) :
    (number n items).map Entry.number = List.range' n items.length := by
  induction items generalizing n with
  | nil => rfl
  | cons x xs ih =>
    show n :: (number (n + 1) xs).map Entry.number = _
    rw [ih]
    rfl

theorem number_items (n : Nat) (items : List α) : (number n items).map Entry.item = items := by
  induction items generalizing n with
  | nil => rfl
  | cons x xs ih => exact congrArg (x :: ·) (ih (n + 1))

/-! ## turns -/

variable {serve : σ → α → Served σ α} {l l' : Line σ α}

theorem pop_empty (h : l.queue = []) : pop serve l = none := by
  unfold pop
  rw [h]

theorem pops_add (m n : Nat) (l : Line σ α) :
    pops serve (m + n) l = (pops serve m l).bind (pops serve n) := by
  induction m generalizing l with
  | zero =>
    rw [Nat.zero_add]
    rfl
  | succ m ih =>
    have hsucc : m + 1 + n = (m + n) + 1 := by omega
    rw [hsucc]
    show (pop serve l).bind (pops serve (m + n)) = ((pop serve l).bind (pops serve m)).bind _
    rw [Option.bind_assoc]
    congr 1
    funext l'
    exact ih l'

/-- A line that goes on for `n` turns and is not empty then is emptied by none of them. -/
theorem not_emptied {n : Nat} (h : pops serve n l = some l') (hne : l'.queue ≠ []) :
    ¬ EmptiedWithin serve n l := by
  rintro ⟨k, hk, m, hm, hempty⟩
  have hsplit : n = k + (n - k) := by omega
  rw [hsplit, pops_add, hm] at h
  cases hrest : n - k with
  | zero =>
    rw [hrest] at h
    cases h
    exact hne hempty
  | succ j =>
    rw [hrest] at h
    have hnone : pops serve (j + 1) m = none := by
      show (pop serve m).bind _ = none
      rw [pop_empty hempty]
      rfl
    exact absurd (hnone.symm.trans h) (by simp)

/-! ## the history -/

structure Sound (l : Line σ α) : Prop where
  /-- what is put at the back comes to the front in that order -/
  order : l.pushed = l.popped.map Prod.fst ++ l.queue
  finished : l.done = (l.popped.filter Prod.snd).map Prod.fst
  /-- an item that arrived is done or in the queue -/
  once : (l.done ++ l.queue).Perm l.arrived
  numbers : l.arrived.map Entry.number = List.range l.arrived.length

theorem sound_start (state : σ) (items : List α) : Sound (Line.start state items) where
  order := rfl
  finished := rfl
  once := List.Perm.refl _
  numbers := by
    show (number 0 items).map Entry.number = List.range (number 0 items).length
    rw [number_numbers, number_length, List.range_eq_range']

theorem Sound.putBack {state : σ} {e : Entry α} {rest : List (Entry α)} (h : Sound l)
    (hq : l.queue = e :: rest) : Sound (l.putBack state e rest) where
  order := by
    show l.pushed ++ [e] = (l.popped ++ [(e, false)]).map Prod.fst ++ (rest ++ [e])
    rw [h.order, hq, List.map_append]
    simp
  finished := by
    show l.done = ((l.popped ++ [(e, false)]).filter Prod.snd).map Prod.fst
    rw [h.finished, List.filter_append]
    simp
  once := by
    refine List.Perm.trans ?_ h.once
    rw [hq]
    show (l.done ++ (rest ++ [e])).Perm (l.done ++ e :: rest)
    exact List.Perm.append_left _ (List.perm_append_singleton e rest)
  numbers := h.numbers

theorem Sound.finish {state : σ} {e : Entry α} {rest : List (Entry α)} {more : List α}
    (h : Sound l) (hq : l.queue = e :: rest) : Sound (l.finish state e rest more) where
  order := by
    show l.pushed ++ _ = (l.popped ++ [(e, true)]).map Prod.fst ++ (rest ++ _)
    rw [h.order, hq, List.map_append]
    simp
  finished := by
    show l.done ++ [e] = ((l.popped ++ [(e, true)]).filter Prod.snd).map Prod.fst
    rw [h.finished, List.filter_append, List.map_append]
    rfl
  once := by
    have hall := h.once
    rw [hq] at hall
    show (l.done ++ [e] ++ (rest ++ number _ more)).Perm (l.arrived ++ number _ more)
    rw [← List.append_assoc, List.append_assoc l.done, List.singleton_append]
    exact List.Perm.append_right _ hall
  numbers := by
    show (l.arrived ++ number _ more).map Entry.number = List.range (l.arrived ++ number _ more).length
    have happend : List.range' 0 l.arrived.length ++ List.range' (0 + l.arrived.length) more.length =
        List.range' 0 (l.arrived.length + more.length) := List.range'_append_1
    rw [Nat.zero_add] at happend
    rw [List.map_append, h.numbers, number_numbers, List.length_append, number_length,
      List.range_eq_range', List.range_eq_range', happend]

theorem Sound.pop (h : Sound l) (hpop : pop serve l = some l') : Sound l' := by
  unfold Fifo.pop at hpop
  split at hpop
  · cases hpop
  · next e rest hq =>
    split at hpop
    · cases hpop
      exact h.putBack hq
    · cases hpop
      exact h.finish hq

theorem pops_sound {n : Nat} (h : Sound l) (hpops : pops serve n l = some l') : Sound l' := by
  induction n generalizing l with
  | zero =>
    cases hpops
    exact h
  | succ n ih =>
    obtain ⟨m, hpop, hrest⟩ := Option.bind_eq_some_iff.mp hpops
    exact ih (h.pop hpop) hrest

theorem pop_length (h : pop serve l = some l') : l'.popped.length = l.popped.length + 1 := by
  unfold pop at h
  split at h
  · cases h
  · split at h
    · cases h
      exact List.length_append
    · cases h
      exact List.length_append

theorem pops_length {n : Nat} (h : pops serve n l = some l') :
    l'.popped.length = l.popped.length + n := by
  induction n generalizing l with
  | zero =>
    cases h
    rfl
  | succ n ih =>
    obtain ⟨m, hpop, hrest⟩ := Option.bind_eq_some_iff.mp h
    rw [ih hrest, pop_length hpop]
    omega

theorem Sound.arrived_nodup (h : Sound l) : l.arrived.Nodup := by
  have hnumbers : (l.arrived.map Entry.number).Nodup := by
    rw [h.numbers]
    exact List.nodup_range
  exact List.Nodup.of_map _ hnumbers

theorem Sound.done_nodup (h : Sound l) : l.done.Nodup :=
  (List.nodup_append.mp ((h.once.nodup_iff).mpr h.arrived_nodup)).1

/-- when the queue is empty, every item that arrived is done -/
theorem Sound.all_done (h : Sound l) (hq : l.queue = []) : l.done.Perm l.arrived := by
  have hall := h.once
  rwa [hq, List.append_nil] at hall

end Fifo
end Lib
