import Mathlib.Data.List.Basic

/-!
# What an `Except` computation went through

* `bind_ok`      a bind that ends well, step by step;
* `mapM_ends`    a loop ends well when each of its steps does;
* `mem_mapM`     and what it gives are the results of its steps.
-/

namespace Lib
variable {ε α β : Type}

theorem bind_ok {x : Except ε α} {f : α → Except ε β} {b : β} :
    (x >>= f) = .ok b ↔ ∃ a, x = .ok a ∧ f a = .ok b := by
  cases x with
  | error e => simp [bind, Except.bind]
  | ok a => simp [bind, Except.bind]

theorem pure_ok {a b : α} : (pure a : Except ε α) = .ok b ↔ a = b := by
  simp [pure, Except.pure]

theorem toOption_eq_some {x : Except ε α} {a : α} : x.toOption = some a ↔ x = .ok a := by
  cases x with
  | error e => exact iff_of_false (Option.some_ne_none a).symm nofun
  | ok b =>
    exact ⟨fun h => congrArg Except.ok (Option.some.inj h), fun h => congrArg some (Except.ok.inj h)⟩

theorem mapM_cons_ok {f : α → Except ε β} {x : α} {xs : List α} {ys : List β} :
    (x :: xs).mapM f = .ok ys ↔ ∃ y zs, f x = .ok y ∧ xs.mapM f = .ok zs ∧ y :: zs = ys := by
  simp only [List.mapM_cons, bind_ok, pure_ok, exists_and_left]

theorem mapM_ends {f : α → Except ε β} {xs : List α} :
    (∃ ys, xs.mapM f = .ok ys) ↔ ∀ x ∈ xs, ∃ y, f x = .ok y := by
  induction xs with
  | nil => exact iff_of_true ⟨[], rfl⟩ (by simp)
  | cons x xs ih =>
    rw [List.forall_mem_cons, ← ih]
    constructor
    · rintro ⟨ys, h⟩
      obtain ⟨y, zs, hx, hxs, -⟩ := mapM_cons_ok.mp h
      exact ⟨⟨y, hx⟩, zs, hxs⟩
    · rintro ⟨⟨y, hx⟩, zs, hxs⟩
      exact ⟨y :: zs, mapM_cons_ok.mpr ⟨y, zs, hx, hxs, rfl⟩⟩

theorem mem_mapM {f : α → Except ε β} {xs : List α} {ys : List β} (h : xs.mapM f = .ok ys) {y : β} :
    y ∈ ys ↔ ∃ x ∈ xs, f x = .ok y := by
  induction xs generalizing ys with
  | nil =>
    cases h
    simp
  | cons x xs ih =>
    obtain ⟨z, zs, hx, hxs, rfl⟩ := mapM_cons_ok.mp h
    rw [List.mem_cons, ih hxs, List.exists_mem_cons_iff, hx, Except.ok.injEq, eq_comm]

end Lib
