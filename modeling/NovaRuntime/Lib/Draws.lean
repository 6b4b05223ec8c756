import Mathlib.SetTheory.Cardinal.Finite

/-!
# What is made of drawn values

A function of a draw spreads it when every value it can give is given by the same number of draws.

* `Spreads f k P`   each value of `P` is given by `k` draws, and no other by any;
* `Spreads.pi`      draws that are changed one by one;
* `Spreads.map`     what is written of a value in an injective way.
-/

namespace Lib

/-- each value of `P` is given by `k` draws, and no other by any -/
structure Spreads {α β : Type*} (f : α → β) (k : ℕ) (P : β → Prop) : Prop where
  within (a : α) : P (f a)
  card {b : β} : P b → Nat.card {a // f a = b} = k

namespace Spreads
variable {α β γ : Type*} {f : α → β} {k : ℕ} {P : β → Prop}

theorem iff (h : Spreads f k P) {Q : β → Prop} (hiff : ∀ b, P b ↔ Q b) : Spreads f k Q where
  within a := (hiff _).mp (h.within a)
  card hb := h.card ((hiff _).mpr hb)

theorem map (h : Spreads f k P) {g : β → γ} (hg : ∀ b b', P b → P b' → g b = g b' → b = b') :
    Spreads (fun a => g (f a)) k fun c => ∃ b, P b ∧ g b = c where
  within a := ⟨f a, h.within a, rfl⟩
  card {c} hc := by
    obtain ⟨b, hb, rfl⟩ := hc
    rw [← h.card hb]
    refine Nat.card_congr (Equiv.subtypeEquivRight fun a => ⟨fun ha => ?_, congrArg g⟩)
    exact hg _ _ (h.within a) hb ha

theorem of_injective (hf : Function.Injective f) : Spreads f 1 fun b => ∃ a, f a = b where
  within a := ⟨a, rfl⟩
  card {b} hb := by
    obtain ⟨a, rfl⟩ := hb
    rw [Nat.card_eq_one_iff_unique]
    exact ⟨⟨fun a b => Subtype.ext (hf (a.2.trans b.2.symm))⟩, ⟨⟨a, rfl⟩⟩⟩

/-- Draws that are changed one by one are spread when each of them is. -/
theorem pi {ι : Type*} [Fintype ι] {f : ι → α → β} {k : ι → ℕ} {P : ι → β → Prop}
    (h : ∀ i, Spreads (f i) (k i) (P i)) :
    Spreads (fun (a : ι → α) i => f i (a i)) (∏ i, k i) fun b => ∀ i, P i (b i) where
  within a i := (h i).within (a i)
  card {b} hb := by
    have heach : Nat.card {a : ι → α // (fun i => f i (a i)) = b} =
        Nat.card (∀ i, {x // f i x = b i}) := by
      refine Nat.card_congr ?_
      exact
        { toFun := fun a i => ⟨a.1 i, congrFun a.2 i⟩
          invFun := fun x => ⟨fun i => (x i).1, funext fun i => (x i).2⟩
          left_inv := fun _ => rfl
          right_inv := fun _ => rfl }
    rw [heach, Nat.card_pi]
    exact Finset.prod_congr rfl fun i _ => (h i).card (hb i)

end Spreads
end Lib
