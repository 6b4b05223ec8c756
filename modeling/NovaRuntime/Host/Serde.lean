import NovaRuntime.Lib.JsonRoundTrip
import Mathlib.Data.List.Lex
import Mathlib.Order.Lattice

/-!
# serde_json values and the payload of a dispatch

* `insertMember`, `toMap`   serde_json's object: a `BTreeMap`, so the members are in key order and
                            the last of two members with one key stays;
* `serdeText`, `serdeTree`  what an escaped surrogate means to serde_json;
* `fromStr`                 `serde_json::from_str`, with its limit on nesting as a parameter;
* `DispatchOutcome`, `DispatchResponse`, `TaskResult`   what the derived `Deserialize` accepts: a
                            struct is an object (unknown members ignored, a repeated one refused)
                            or the sequence of its fields.
-/

namespace NovaRuntime
open Lib

/-! ## objects -/

def insertMember (k : Text) (v : Json) : List (Text × Json) → List (Text × Json)
  | [] => [(k, v)]
  | m :: ms =>
    if k < m.1 then (k, v) :: m :: ms
    else if k = m.1 then (k, v) :: ms
    else m :: insertMember k v ms

def toMap (ms : List (Text × Json)) : List (Text × Json) :=
  ms.foldl (fun acc m => insertMember m.1 m.2 acc) []

mutual
/-- the `serde_json::Value` of a tree -/
def toValue : Json → Json
  | .null => .null
  | .bool b => .bool b
  | .num n => .num n
  | .str s => .str s
  | .arr xs => .arr (toValues xs)
  | .obj ms => .obj (toMap (toMembers ms))
def toValues : List Json → List Json
  | [] => []
  | x :: xs => toValue x :: toValues xs
def toMembers : List (Text × Json) → List (Text × Json)
  | [] => []
  | (k, x) :: ms => (k, toValue x) :: toMembers ms
end

/-- an object's members as serde_json keeps them: in key order, every key once -/
def KeySorted (ms : List (Text × Json)) : Prop := ms.Pairwise fun m m' => m.1 < m'.1

theorem insertMember_perm {k : Text} {v : Json} {ms : List (Text × Json)}
    (h : k ∉ ms.map Prod.fst) : (insertMember k v ms).Perm ((k, v) :: ms) := by
  induction ms with
  | nil => rfl
  | cons m ms ih =>
    rw [List.map_cons, List.mem_cons, not_or] at h
    rw [insertMember]
    split
    · rfl
    · rw [if_neg h.1]
      exact ((ih h.2).cons m).trans (List.Perm.swap _ _ _)

theorem mem_insertMember {k : Text} {v : Json} {ms : List (Text × Json)} {m : Text × Json}
    (h : m ∈ insertMember k v ms) : m = (k, v) ∨ m ∈ ms := by
  induction ms with
  | nil => exact .inl (List.mem_singleton.mp h)
  | cons m' ms ih =>
    rw [insertMember] at h
    split at h
    · exact List.mem_cons.mp h
    · split at h
      · exact (List.mem_cons.mp h).imp_right (List.mem_cons_of_mem _)
      · rcases List.mem_cons.mp h with rfl | h
        · exact .inr List.mem_cons_self
        · exact (ih h).imp_right (List.mem_cons_of_mem _)

theorem KeySorted.insertMember {k : Text} {v : Json} {ms : List (Text × Json)}
    (h : KeySorted ms) : KeySorted (insertMember k v ms) := by
  induction ms with
  | nil => exact List.pairwise_singleton _ _
  | cons m ms ih =>
    obtain ⟨hm, hms⟩ := List.pairwise_cons.mp h
    rw [NovaRuntime.insertMember]
    split
    · next hlt =>
      refine List.pairwise_cons.mpr ⟨fun m' hm' => ?_, h⟩
      rcases List.mem_cons.mp hm' with rfl | hm'
      · exact hlt
      · exact lt_trans hlt (hm m' hm')
    · next hlt =>
      split
      · next heq =>
        subst heq
        exact List.pairwise_cons.mpr ⟨hm, hms⟩
      · next hne =>
        refine List.pairwise_cons.mpr ⟨fun m' hm' => ?_, ih hms⟩
        rcases mem_insertMember hm' with rfl | hm'
        · exact lt_of_le_of_ne (not_lt.mp hlt) (Ne.symm hne)
        · exact hm m' hm'

theorem insertAll_sorted (ms : List (Text × Json)) : ∀ acc, KeySorted acc →
    KeySorted (ms.foldl (fun acc m => insertMember m.1 m.2 acc) acc) := by
  induction ms with
  | nil => exact fun acc h => h
  | cons m ms ih => exact fun acc h => ih _ h.insertMember

/-- serde_json keeps every key once, in order. -/
theorem toMap_sorted (ms : List (Text × Json)) : KeySorted (toMap ms) :=
  insertAll_sorted ms [] List.Pairwise.nil

theorem KeySorted.nodup {ms : List (Text × Json)} (h : KeySorted ms) : (ms.map Prod.fst).Nodup :=
  List.pairwise_map.mpr (h.imp fun h => ne_of_lt h)

theorem insertAll_perm (ms : List (Text × Json)) : ∀ acc : List (Text × Json),
    ((ms.map Prod.fst) ++ acc.map Prod.fst).Nodup →
    (ms.foldl (fun acc m => insertMember m.1 m.2 acc) acc).Perm (ms ++ acc) := by
  induction ms with
  | nil => exact fun acc _ => List.Perm.refl _
  | cons m ms ih =>
    intro acc hnodup
    rw [List.map_cons, List.cons_append, List.nodup_cons, List.mem_append, not_or] at hnodup
    obtain ⟨⟨hml, hmacc⟩, hnodup⟩ := hnodup
    have hins := insertMember_perm (v := m.2) hmacc
    have hkeys : ((ms.map Prod.fst) ++ (insertMember m.1 m.2 acc).map Prod.fst).Nodup := by
      refine (((hins.map Prod.fst).append_left _).nodup_iff).mpr ?_
      rw [List.map_cons, List.nodup_middle]
      refine List.nodup_cons.mpr ⟨?_, hnodup⟩
      rw [List.mem_append, not_or]
      exact ⟨hml, hmacc⟩
    exact (ih _ hkeys).trans ((hins.append_left _).trans List.perm_middle)

theorem toMap_perm_self {ms : List (Text × Json)} (h : (ms.map Prod.fst).Nodup) :
    (toMap ms).Perm ms := by
  have hperm := insertAll_perm ms [] (by simpa using h)
  rwa [List.append_nil] at hperm

/-- Members with keys of their own are kept, whatever their order. -/
theorem toMap_perm {ms sorted : List (Text × Json)} (hs : KeySorted sorted)
    (hp : ms.Perm sorted) : toMap ms = sorted := by
  have hnodup : (ms.map Prod.fst).Nodup := (hp.map Prod.fst).nodup_iff.mpr hs.nodup
  exact List.Perm.eq_of_pairwise (fun a b _ _ hab hba => absurd (lt_trans hab hba) (lt_irrefl _))
    (toMap_sorted ms) hs ((toMap_perm_self hnodup).trans hp)

/-! ## reading a text -/

/-- the scalar values of a string whose escapes may name a surrogate pair; a lone surrogate is an
error -/
def serdeText : Text → Option Text
  | [] => some []
  | [c] => if isHigh c || isLow c then none else some [c]
  | h :: l :: r =>
    if isHigh h && isLow l then (serdeText r).map (pairPoint h l :: ·)
    else if isHigh h || isLow h then none
    else (serdeText (l :: r)).map (h :: ·)

mutual
def serdeTree : Json → Option Json
  | .null => some .null
  | .bool b => some (.bool b)
  | .num n => some (.num n)
  | .str s => (serdeText s).map .str
  | .arr xs => (serdeItems xs).map .arr
  | .obj ms => (serdeMembers ms).map .obj
def serdeItems : List Json → Option (List Json)
  | [] => some []
  | x :: xs => (serdeTree x).bind fun y => (serdeItems xs).map (y :: ·)
def serdeMembers : List (Text × Json) → Option (List (Text × Json))
  | [] => some []
  | (k, x) :: ms => (serdeText k).bind fun k' => (serdeTree x).bind fun y =>
      (serdeMembers ms).map ((k', y) :: ·)
end

mutual
def depth : Json → Nat
  | .arr xs => 1 + depthItems xs
  | .obj ms => 1 + depthMembers ms
  | .null | .bool _ | .num _ | .str _ => 0
def depthItems : List Json → Nat
  | [] => 0
  | x :: xs => max (depth x) (depthItems xs)
def depthMembers : List (Text × Json) → Nat
  | [] => 0
  | (_, x) :: ms => max (depth x) (depthMembers ms)
end

/-- the deepest nesting `serde_json::from_str` reads -/
def recursionLimit : Nat := 127

def within (limit : Option Nat) (j : Json) : Bool :=
  match limit with
  | none => true
  | some n => decide (depth j ≤ n)

/-- `serde_json::from_str`, before any type has been asked for -/
def fromStr (limit : Option Nat) (s : Text) : Option Json :=
  (Json.parse s).bind fun j => if within limit j then serdeTree j else none

theorem within_of_depth {limit : Option Nat} {n : Nat} (hl : limit.all (n ≤ ·) = true) {j : Json}
    (hj : depth j ≤ n) : within limit j = true := by
  cases limit with
  | none => rfl
  | some m =>
    have hm : n ≤ m := by simpa using hl
    exact decide_eq_true (hj.trans hm)

/-! ## texts without escaped surrogates -/

theorem serdeText_scalars : ∀ {s : Text}, Scalars s → serdeText s = some s
  | [], _ => rfl
  | [c], h => by
    obtain ⟨hh, hl⟩ := not_surrogate (h c (by simp))
    simp [serdeText, hh, hl]
  | a :: b :: r, h => by
    obtain ⟨hh, hl⟩ := not_surrogate (h a (by simp))
    have ih := serdeText_scalars (s := b :: r) h.tail
    simp [serdeText, hh, hl, ih]

mutual
theorem serdeTree_scalar : ∀ j : Json, Json.ScalarTree j → serdeTree j = some j
  | .null, _ | .bool _, _ | .num _, _ => rfl
  | .str s, h => by rw [serdeTree, serdeText_scalars h, Option.map_some]
  | .arr xs, h => by rw [serdeTree, serdeItems_scalar xs h, Option.map_some]
  | .obj ms, h => by rw [serdeTree, serdeMembers_scalar ms h, Option.map_some]
theorem serdeItems_scalar : ∀ xs : List Json, Json.ScalarItems xs → serdeItems xs = some xs
  | [], _ => rfl
  | x :: xs, h => by
    rw [serdeItems, serdeTree_scalar x h.1, serdeItems_scalar xs h.2, Option.bind_some,
      Option.map_some]
theorem serdeMembers_scalar : ∀ ms : List (Text × Json), Json.ScalarMembers ms →
    serdeMembers ms = some ms
  | [], _ => rfl
  | (k, x) :: ms, h => by
    rw [serdeMembers, serdeText_scalars h.1, serdeTree_scalar x h.2.1,
      serdeMembers_scalar ms h.2.2]
    rfl
end

/-- What was printed from scalar values and crossed as UTF-16 is read back. -/
theorem fromStr_print {limit : Option Nat} {j : Json} (h : Json.ScalarTree j)
    (hl : within limit j = true) :
    fromStr limit (decodeLossy (Json.print (Json.map encode j))) = some j := by
  rw [Json.print_map_encode, decodeLossy_encode (Json.scalars_print j h), fromStr, Json.parse_print,
    Option.bind_some, if_pos hl, serdeTree_scalar j h]

/-- The limit counts every level of the tree. -/
theorem fromStr_deep {limit : Option Nat} {j : Json} (h : Json.ScalarTree j)
    (hl : within limit j = false) :
    fromStr limit (decodeLossy (Json.print (Json.map encode j))) = none := by
  rw [Json.print_map_encode, decodeLossy_encode (Json.scalars_print j h), fromStr, Json.parse_print,
    Option.bind_some, if_neg (by simp [hl])]

/-! ## structs -/

/-- The values of a struct's fields, those with `#[serde(default)]` last: the members of an object,
or the elements of a sequence, whose end may leave out fields with a default.  A field that is not
there is `none`; a repeated one makes the whole fail. -/
def fields (names defaulted : List Text) : Json → Option (List (Option Json))
  | .obj ms => (names ++ defaulted).mapM fun name =>
      match ms.filter fun m => m.1 = name with
      | [] => some none
      | [m] => some (some m.2)
      | _ => none
  | .arr xs =>
      if names.length ≤ xs.length ∧ xs.length ≤ names.length + defaulted.length then
        some (xs.map some ++ List.replicate (names.length + defaulted.length - xs.length) none)
      else none
  | _ => none

def decodeString : Json → Option Text
  | .str s => some s
  | _ => none

def decodeBool : Json → Option Bool
  | .bool b => some b
  | _ => none

/-- an unsigned integer below `bound`; serde_json reads `-0` as a float -/
def decodeNat (bound : Nat) : Json → Option Nat
  | .num ⟨false, n, none, none⟩ => if n < bound then some n else none
  | _ => none

def decodeVec {α : Type} (decode : Json → Option α) : Json → Option (List α)
  | .arr xs => xs.mapM decode
  | _ => none

/-- `Option<T>`: null and an absent field are `None` -/
def decodeOption {α : Type} (decode : Json → Option α) : Option Json → Option (Option α)
  | none | some .null => some none
  | some j => (decode j).map some

structure DispatchResponse where
  status : Nat
  headers : List (Text × Text)
  body : Text
  deriving DecidableEq

def decodeHeader : Json → Option (Text × Text)
  | .arr [.str name, .str value] => some (name, value)
  | _ => none

def decodeDispatchResponse (j : Json) : Option DispatchResponse :=
  match fields [txt "status", txt "headers", txt "body"] [] j with
  | some [some status, some headers, some body] => do
    return ⟨← decodeNat (2 ^ 16) status, ← decodeVec decodeHeader headers, ← decodeString body⟩
  | _ => none

structure TaskResult where
  success : Bool
  data : Option Json
  error : Option Text

def decodeTaskResult (j : Json) : Option TaskResult :=
  match fields [txt "success", txt "data", txt "error"] [] j with
  | some [some success, data, error] => do
    return ⟨← decodeBool success, ← decodeOption (fun d => some (toValue d)) data,
      ← decodeOption decodeString error⟩
  | _ => none

inductive DispatchOutcome (T : Type) where
  | value (value : T)
  | error (error : Text)

/-- the first variant that fits: the enum is untagged -/
def decodeDispatchOutcome {T : Type} (decode : Json → Option T) (j : Json) :
    Option (DispatchOutcome T) :=
  match fields [txt "value"] [] j with
  | some [some v] =>
    match decode v with
    | some t => some (.value t)
    | none => errorVariant j
  | _ => errorVariant j
where
  errorVariant (j : Json) : Option (DispatchOutcome T) :=
    match fields [txt "error"] [] j with
    | some [some e] => (decodeString e).map .error
    | _ => none

end NovaRuntime
