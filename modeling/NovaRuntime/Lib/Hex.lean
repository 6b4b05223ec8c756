import NovaRuntime.Lib.JsonRoundTrip

/-!
# Bytes as hexadecimal text

* `ofByte`, `ofBytes`   two digits a byte, in lower case;
* `pair`                the byte of two digits, in either case;
* `Digits`              the texts of digits, two a byte; `lower` writes them in lower case.
-/

namespace Lib
namespace Hex

def ofByte (b : UInt8) : Text := [Json.hexChar (b.toNat / 16), Json.hexChar (b.toNat % 16)]

def ofBytes (bs : List UInt8) : Text := bs.flatMap ofByte

theorem ofBytes_cons (b : UInt8) (bs : List UInt8) : ofBytes (b :: bs) = ofByte b ++ ofBytes bs := rfl

theorem hexChar_lt (d : Nat) (h : d < 16) : Json.hexChar d < 128 := by
  unfold Json.hexChar
  split <;> omega

theorem hexChar_ne {c d : Nat} (hc : c < 48 ∨ 57 < c ∧ c < 97) (h : d < 16) : Json.hexChar d ≠ c := by
  unfold Json.hexChar
  split <;> omega

theorem mem_ofBytes {bs : List UInt8} {c : Nat} (hc : c ∈ ofBytes bs) :
    ∃ d < 16, c = Json.hexChar d := by
  obtain ⟨b, -, hc⟩ := List.mem_flatMap.mp hc
  have h := b.toNat_lt
  rcases List.mem_cons.mp hc with rfl | hc
  · exact ⟨b.toNat / 16, by omega, rfl⟩
  · exact ⟨b.toNat % 16, Nat.mod_lt _ (by decide), List.mem_singleton.mp hc⟩

theorem ofBytes_ascii (bs : List UInt8) : ∀ c ∈ ofBytes bs, c < 128 := by
  intro c hc
  obtain ⟨d, hd, rfl⟩ := mem_ofBytes hc
  exact hexChar_lt d hd

theorem length_ofBytes (bs : List UInt8) : (ofBytes bs).length = 2 * bs.length := by
  induction bs with
  | nil => rfl
  | cons b bs ih =>
    rw [ofBytes_cons, List.length_append, ih]
    show 2 + _ = 2 * (bs.length + 1)
    omega

/-- the value of two hexadecimal digits -/
def pair (a b : Nat) : Option UInt8 := do
  let high ← Json.hexVal a
  let low ← Json.hexVal b
  return UInt8.ofNat (16 * high + low)

theorem pair_ofByte (b : UInt8) :
    pair (Json.hexChar (b.toNat / 16)) (Json.hexChar (b.toNat % 16)) = some b := by
  have h := b.toNat_lt
  rw [pair, Json.hexVal_hexChar _ (by omega), Json.hexVal_hexChar _ (Nat.mod_lt _ (by decide))]
  show some (UInt8.ofNat (16 * (b.toNat / 16) + b.toNat % 16)) = some b
  rw [Nat.div_add_mod, UInt8.ofNat_toNat]

/-- a text of digits, in either case, of even length -/
def Digits (text : Text) : Prop := text.length % 2 = 0 ∧ ∀ c ∈ text, (Json.hexVal c).isSome

/-- a letter of a digit in lower case -/
def lower (c : Nat) : Nat := if 65 ≤ c ∧ c ≤ 70 then c + 32 else c

theorem digits_nil : Digits [] := ⟨rfl, List.forall_mem_nil _⟩

theorem digits_cons_cons {a b : Nat} {text : Text} :
    Digits (a :: b :: text) ↔
      (Json.hexVal a).isSome ∧ (Json.hexVal b).isSome ∧ Digits text := by
  unfold Digits
  have hlength : (a :: b :: text).length = text.length + 2 := rfl
  rw [hlength, Nat.add_mod_right, List.forall_mem_cons, List.forall_mem_cons]
  tauto

theorem not_digits_singleton (a : Nat) : ¬Digits [a] := fun h => by cases h.1

/-- A digit is written back in lower case. -/
theorem hexChar_of_hexVal {c d : Nat} (h : Json.hexVal c = some d) :
    d < 16 ∧ Json.hexChar d = lower c := by
  unfold Json.hexVal at h
  unfold Json.hexChar lower
  split_ifs at h with h1 h2 h3
  · cases h
    rw [if_pos (by omega), if_neg (by omega)]
    omega
  · cases h
    rw [if_neg (by omega), if_neg (by omega)]
    omega
  · cases h
    rw [if_neg (by omega), if_pos h3]
    omega

theorem ofByte_pair {a b : Nat} {byte : UInt8} (h : pair a b = some byte) :
    ofByte byte = [lower a, lower b] := by
  unfold pair at h
  obtain ⟨high, hhigh, h⟩ := Option.bind_eq_some_iff.mp h
  obtain ⟨low, hlow, h⟩ := Option.bind_eq_some_iff.mp h
  cases h
  obtain ⟨hhigh16, hhigh⟩ := hexChar_of_hexVal hhigh
  obtain ⟨hlow16, hlow⟩ := hexChar_of_hexVal hlow
  have htoNat : (UInt8.ofNat (16 * high + low)).toNat = 16 * high + low := by
    rw [UInt8.toNat_ofNat']
    omega
  have hdiv : (16 * high + low) / 16 = high := by omega
  have hmod : (16 * high + low) % 16 = low := by omega
  rw [ofByte, htoNat, hdiv, hmod, hhigh, hlow]

end Hex
end Lib
