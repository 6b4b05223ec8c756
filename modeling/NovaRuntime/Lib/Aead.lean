import Mathlib.Data.List.Basic

/-!
# An ideal AEAD

A cipher that opens only what was sealed under the same key, nonce and associated data.  Sealing is
any function that gives different ciphertexts for different messages; opening looks the ciphertext up
in the record of what was sealed.

* `Sealed`        one message, and what it was sealed under and as;
* `decrypt`        opening, from the records;
* `decrypt_eq_some`   what opens is what was sealed.
-/

namespace Lib
namespace Aead
variable {K N A M C : Type*}

structure Sealed (K N A M C : Type*) where
  key : K
  nonce : N
  aad : A
  msg : M
  ct : C

/-- under one key, nonce and associated data a ciphertext is of one message -/
def Binding (encrypt : K → N → A → M → Option C) : Prop :=
  ∀ k n a m m' c, encrypt k n a m = some c → encrypt k n a m' = some c → m = m'

/-- the records are of messages that were sealed -/
def Recorded (encrypt : K → N → A → M → Option C) (log : List (Sealed K N A M C)) : Prop :=
  ∀ r ∈ log, encrypt r.key r.nonce r.aad r.msg = some r.ct

section
variable [DecidableEq K] [DecidableEq N] [DecidableEq A] [DecidableEq C]

def decrypt (log : List (Sealed K N A M C)) (k : K) (n : N) (a : A) (c : C) : Option M :=
  (log.find? fun r => r.key = k ∧ r.nonce = n ∧ r.aad = a ∧ r.ct = c).map Sealed.msg

variable {log : List (Sealed K N A M C)} {k : K} {n : N} {a : A} {m : M} {c : C}

theorem mem_of_decrypt (h : decrypt log k n a c = some m) : ⟨k, n, a, m, c⟩ ∈ log := by
  obtain ⟨r, hr, rfl⟩ := Option.map_eq_some_iff.mp h
  have hsame := List.find?_some hr
  rw [decide_eq_true_eq] at hsame
  obtain ⟨rfl, rfl, rfl, rfl⟩ := hsame
  exact List.mem_of_find?_eq_some hr

/-- What opens is what was sealed. -/
theorem decrypt_eq_some {encrypt : K → N → A → M → Option C} (hbinding : Binding encrypt)
    (hlog : Recorded encrypt log) : decrypt log k n a c = some m ↔ ⟨k, n, a, m, c⟩ ∈ log := by
  refine ⟨mem_of_decrypt, fun h => ?_⟩
  cases hopen : decrypt log k n a c with
  | none =>
    have hnone := List.find?_eq_none.mp (Option.map_eq_none_iff.mp hopen) _ h
    exact absurd hnone (by simp)
  | some m' =>
    exact congrArg some (hbinding k n a m' m c (hlog _ (mem_of_decrypt hopen)) (hlog _ h))

end

end Aead
end Lib
