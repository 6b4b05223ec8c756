import NovaRuntime.Script.Delivery
import NovaRuntime.Script.PlainData

/-!
# Task data

`Payload` is what the embedder may have sent.

* `data_payload`      a payload is data that crosses;
* `toValue_payload`   and that the host reads as it is.
-/

namespace NovaRuntime
open Lib

mutual
/-- null, booleans, strings, integers below 2 ^ 53, arrays, and objects as serde_json holds them -/
def Payload : Json → Prop
  | .null | .bool _ => True
  | .num n => ∃ i : Int, i.natAbs < 2 ^ 53 ∧ n = NumLit.ofInt i
  | .str s => Scalars s
  | .arr xs => PayloadItems xs
  | .obj ms => KeySorted ms ∧ PayloadMembers ms
def PayloadItems : List Json → Prop
  | [] => True
  | x :: xs => Payload x ∧ PayloadItems xs
def PayloadMembers : List (Text × Json) → Prop
  | [] => True
  | (k, x) :: ms => Scalars k ∧ Payload x ∧ PayloadMembers ms
end

/-! ## payloads are data -/

mutual
theorem data_payload : ∀ p : Json, Payload p → Data p
  | .null, _ | .bool _, _ => trivial
  | .num n, h => by
    obtain ⟨i, hi, rfl⟩ := h
    exact data_ofInt hi
  | .str _, h => h
  | .arr xs, h => data_items xs h
  | .obj ms, h => ⟨h.1.nodup, data_members ms h.2⟩
theorem data_items : ∀ xs : List Json, PayloadItems xs → DataItems xs
  | [], _ => trivial
  | x :: xs, h => ⟨data_payload x h.1, data_items xs h.2⟩
theorem data_members : ∀ ms : List (Text × Json), PayloadMembers ms → DataMembers ms
  | [], _ => trivial
  | (_, x) :: ms, h => ⟨h.1, data_payload x h.2.1, data_members ms h.2.2⟩
end

mutual
theorem toValue_payload : ∀ p : Json, Payload p → toValue p = p
  | .null, _ | .bool _, _ | .num _, _ | .str _, _ => rfl
  | .arr xs, h => congrArg Json.arr (toValues_payload xs h)
  | .obj ms, h => by
    rw [toValue, toMembers_payload ms h.2, toMap_perm h.1 (List.Perm.refl ms)]
theorem toValues_payload : ∀ xs : List Json, PayloadItems xs → toValues xs = xs
  | [], _ => rfl
  | x :: xs, h => congrArg₂ List.cons (toValue_payload x h.1) (toValues_payload xs h.2)
theorem toMembers_payload : ∀ ms : List (Text × Json), PayloadMembers ms → toMembers ms = ms
  | [], _ => rfl
  | (k, x) :: ms, h =>
    congrArg₂ List.cons (congrArg (k, ·) (toValue_payload x h.2.1)) (toMembers_payload ms h.2.2)
end

/-- a payload is written as `wireJson` leaves it, and the host reads it again -/
theorem payload_crosses {p : Json} (h : Payload p) :
    ∃ t, Crosses (serialize false) p t ∧ toValue t = p := by
  obtain ⟨t, ht⟩ := data_crosses plainly_serialize p (data_payload p h)
  exact ⟨t, ht, ht.value.trans (toValue_payload p h)⟩

theorem payload_members : ∀ ms : List (Text × Json), PayloadMembers ms →
    ∀ m ∈ ms, Scalars m.1 ∧ Payload m.2
  | [], _ => by simp
  | (_, _) :: ms, h => List.forall_mem_cons.mpr ⟨⟨h.1, h.2.1⟩, payload_members ms h.2.2⟩

end NovaRuntime
