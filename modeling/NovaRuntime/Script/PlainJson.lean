import NovaRuntime.Script.Stringify
import NovaRuntime.Lib.JsonRoundTrip

/-!
# `JSON.stringify` without a replacer

* `jsonText`   the text of a tree; the engine writes a lone surrogate as an escape;
* `stringify_eq`   with `wireJson` there is none to escape;
* `serializePlain`, `stringifyPlain`   serialising without a replacer;
* `leftOut`   the values that `JSON.stringify` leaves out, with and without the replacer;
* `PlainWritten`   the ways in which an object can be serialised.
-/

namespace NovaRuntime
open Lib

/-! ## the text of a tree -/

def unicodeEscape (c : Nat) : Text :=
  txt "\\u" ++ [c / 4096, c / 256 % 16, c / 16 % 16, c % 16].map Json.hexChar

/-- every lone surrogate written as an escape -/
def escapeLone : Text → Text
  | [] => []
  | [c] => if isHigh c || isLow c then unicodeEscape c else [c]
  | h :: l :: r =>
    if isHigh h && isLow l then h :: l :: escapeLone r
    else (if isHigh h || isLow h then unicodeEscape h else [h]) ++ escapeLone (l :: r)

/-- what `JSON.stringify` writes for a tree of code units -/
def jsonText (j : Json) : Text := escapeLone (Json.print j)

theorem escapeLone_plain {c : Nat} (hh : isHigh c = false) (hl : isLow c = false) (s : Text) :
    escapeLone (c :: s) = c :: escapeLone s := by
  cases s with
  | nil => simp [escapeLone, hh, hl]
  | cons d r => simp [escapeLone, hh, hl]

theorem escapeLone_encodePoint {c : Nat} (hc : Scalar c) (r : Text) :
    escapeLone (encodePoint c ++ r) = encodePoint c ++ escapeLone r := by
  by_cases h : c < 0x10000
  · obtain ⟨hh, hl⟩ := not_surrogate hc
    rw [encodePoint_bmp h]
    exact escapeLone_plain hh hl r
  · have hlt : c < 0x110000 := by unfold Scalar at hc; omega
    obtain ⟨hi, lo, he, h1, h2, _⟩ := encodePoint_astral (by omega) hlt
    rw [he]
    simp [escapeLone, h1, h2]

theorem escapeLone_encoded {s : Text} (h : Encoded s) : escapeLone s = s := by
  obtain ⟨t, ht, rfl⟩ := h
  induction t with
  | nil => rfl
  | cons c t ih =>
    rw [encode_cons, escapeLone_encodePoint (ht c List.mem_cons_self), ih ht.tail]

theorem WireTree.encoded_print {j : Json} (h : WireTree j) : Encoded (Json.print j) := by
  obtain ⟨t, ht, rfl⟩ := h
  exact ⟨Json.print t, Json.scalars_print t ht, (Json.print_map_encode t).symm⟩

/-- the text of a tree with no lone surrogate -/
theorem WireTree.jsonText {j : Json} (h : WireTree j) : jsonText j = Json.print j :=
  escapeLone_encoded h.encoded_print

/-- With the replacer nothing is left for the engine to escape. -/
theorem stringify_eq (v : JsVal) :
    stringify v = (serialize false v).bind fun j => j.map jsonText := by
  rw [stringify]
  cases h : serialize false v with
  | none => rfl
  | some j =>
    cases j with
    | none => rfl
    | some j => exact congrArg some (serialize_wire h).jsonText.symm

/-! ## without the replacer -/

def numberJson : F64 → Json
  | .fin q => .num (numberToString q)
  | .nan | .inf _ => .null

/-- what a wrapper is serialised as -/
def unbox (shape : Shape) (throws : Op → Bool) : Boxed → Option Json
  | .number => if throws .toNumber then none else some (numberJson shape.number)
  | .string => if throws .toText then none else some (.str shape.text.units)
  | .boolean b => some (.bool b)
  | .bigint => none

/-- `JSON.stringify` without a replacer, read as `serialize` is -/
def serializePlain : (asked : Bool) → JsVal → Option (Option Json)
  | _, .undefined => some none
  | _, .null => some (some .null)
  | _, .bool b => some (some (.bool b))
  | _, .num x => some (some (numberJson x))
  | _, .str s => some (some (.str s.units))
  | _, .symbol _ => some none
  | asked, .bigint _ toJSON throws result =>
    if asked || throws || !toJSON then none else serializePlain true result
  | asked, .object shape throws result =>
    if !asked && throws .toJSON then none
    else if !asked && shape.toJSON then serializePlain true (result .toJSON)
    else if shape.callable then some none
    else match shape.boxed with
      | some b => (unbox shape throws b).map some
      | none =>
        if throws .isArray || throws .enter then none
        else if shape.isArray then
          if throws .length then none
          else ((List.range shape.length).mapM fun i =>
            if throws (.item i) then none
            else (serializePlain false (result (.item i))).map fun j => j.getD .null).map fun xs =>
              some (.arr xs)
        else if throws .keys then none
        else (shape.keys.mapM fun k =>
          if throws (.get k.units) then none
          else (serializePlain false (result (.get k.units))).map fun j => (k.units, j)).map fun ms =>
            some (.obj (ms.filterMap fun m => m.2.map fun j => (m.1, j)))

def stringifyPlain (v : JsVal) : Option Text :=
  (serializePlain false v).bind fun j => j.map jsonText

/-- whether `JSON.stringify` leaves a value out -/
def leftOut : (asked : Bool) → JsVal → Bool
  | _, .undefined | _, .symbol _ => true
  | _, .null | _, .bool _ | _, .num _ | _, .str _ => false
  | _, .bigint _ _ _ result => leftOut true result
  | asked, .object shape _ result =>
    if !asked && shape.toJSON then leftOut true (result .toJSON) else shape.callable

/-! ## one value -/

theorem past_asked {asked : Bool} {shape : Shape} {throws : Op → Bool}
    (ha : PastToJSON asked shape throws) : (!asked && shape.toJSON) = false := by
  cases asked with
  | true => rfl
  | false => exact (ha rfl).2

theorem serializePlain_past {asked : Bool} {shape : Shape} {throws : Op → Bool}
    {result : Op → JsVal} (ha : PastToJSON asked shape throws) :
    serializePlain asked (.object shape throws result) =
      serializePlain true (.object shape throws result) := by
  cases asked with
  | true => rfl
  | false =>
    obtain ⟨ht, hj⟩ := ha rfl
    simp only [serializePlain, ht, hj, Bool.not_false, Bool.true_and, Bool.false_eq_true, ↓reduceIte,
      Bool.not_true, Bool.false_and]

theorem serializePlain_toJSON {asked : Bool} {shape : Shape} {throws : Op → Bool}
    {result : Op → JsVal} {j : Option Json} (ha : ¬ PastToJSON asked shape throws)
    (h : serializePlain asked (.object shape throws result) = some j) :
    asked = false ∧ throws .toJSON = false ∧ shape.toJSON = true ∧
      serializePlain true (result .toJSON) = some j := by
  simp only [PastToJSON, Classical.not_imp, not_and, Bool.not_eq_false] at ha
  obtain ⟨rfl, hjson⟩ := ha
  simp only [serializePlain, Bool.not_false, Bool.true_and] at h
  split at h
  · cases h
  · next ht =>
    have ht := Bool.eq_false_iff.mpr ht
    rw [if_pos (hjson ht)] at h
    exact ⟨rfl, ht, hjson ht, h⟩

/-- what `JSON.stringify` makes of an object once its `toJSON` was asked -/
inductive PlainWritten (shape : Shape) (throws : Op → Bool) (result : Op → JsVal) :
    Option Json → Prop
  | function (hc : shape.callable = true) : PlainWritten shape throws result none
  | wrapper (b j) (hc : shape.callable = false) (hb : shape.boxed = some b)
      (hj : unbox shape throws b = some j) : PlainWritten shape throws result (some j)
  | array (xs) (hc : shape.callable = false) (hb : shape.boxed = none)
      (hi : throws .isArray = false) (harr : shape.isArray = true) (he : throws .enter = false)
      (hl : throws .length = false)
      (hxs : ((List.range shape.length).mapM fun i =>
        if throws (.item i) then none
        else (serializePlain false (result (.item i))).map fun j => j.getD .null) = some xs) :
      PlainWritten shape throws result (some (.arr xs))
  | members (ms) (hc : shape.callable = false) (hb : shape.boxed = none)
      (hi : throws .isArray = false) (harr : shape.isArray = false) (he : throws .enter = false)
      (hk : throws .keys = false)
      (hms : (shape.keys.mapM fun k =>
        if throws (.get k.units) then none
        else (serializePlain false (result (.get k.units))).map fun j => (k.units, j)) = some ms) :
      PlainWritten shape throws result
        (some (.obj (ms.filterMap fun m => m.2.map fun j => (m.1, j))))

theorem plainWritten_of_serializePlain {shape : Shape} {throws : Op → Bool} {result : Op → JsVal}
    {j : Option Json} (h : serializePlain true (.object shape throws result) = some j) :
    PlainWritten shape throws result j := by
  simp only [serializePlain, Bool.not_true, Bool.false_and, Bool.false_eq_true, ↓reduceIte] at h
  split at h
  · next hc =>
    cases h
    exact .function hc
  · next hc =>
    have hc := Bool.eq_false_iff.mpr hc
    split at h
    · next b hb =>
      obtain ⟨j, hj, rfl⟩ := Option.map_eq_some_iff.mp h
      exact .wrapper b j hc hb hj
    · next hb =>
      split at h
      · cases h
      · next hie =>
        simp only [Bool.or_eq_true, not_or, Bool.not_eq_true] at hie
        obtain ⟨hi, he⟩ := hie
        split at h
        · next harr =>
          split at h
          · cases h
          · next hl =>
            obtain ⟨xs, hxs, rfl⟩ := Option.map_eq_some_iff.mp h
            exact .array xs hc hb hi harr he (Bool.eq_false_iff.mpr hl) hxs
        · next harr =>
          split at h
          · cases h
          · next hk =>
            obtain ⟨ms, hms, rfl⟩ := Option.map_eq_some_iff.mp h
            exact .members ms hc hb hi (Bool.eq_false_iff.mpr harr) he (Bool.eq_false_iff.mpr hk) hms

theorem leftOut_past {asked : Bool} {shape : Shape} {throws : Op → Bool} {result : Op → JsVal}
    (ha : PastToJSON asked shape throws) :
    leftOut asked (.object shape throws result) = shape.callable := by
  rw [leftOut, past_asked ha, if_neg (by decide)]

/-- The replacer leaves out what is left out without it. -/
theorem isNone_serialize {asked : Bool} {v : JsVal} {j : Option Json}
    (h : serialize asked v = some j) : j.isNone = leftOut asked v := by
  induction v generalizing asked j with
  | undefined | symbol | null | bool | str =>
    cases h
    rfl
  | num x => cases x <;> cases h <;> rfl
  | bigint n toJSON throws result ih =>
    rw [serialize] at h
    split at h
    · cases h
    · exact ih h
  | object shape throws result ih =>
    by_cases hpast : PastToJSON asked shape throws
    · rw [serialize_past hpast] at h
      rw [leftOut_past hpast]
      cases written_of_serialize h with
      | function hc => exact hc.symm
      | array xs hc => exact hc.symm
      | members clean ms hc => exact hc.symm
    · obtain ⟨rfl, ht, hj, h⟩ := serialize_toJSON hpast h
      rw [leftOut, hj]
      exact ih _ h

theorem isNone_serializePlain {asked : Bool} {v : JsVal} {j : Option Json}
    (h : serializePlain asked v = some j) : j.isNone = leftOut asked v := by
  induction v generalizing asked j with
  | undefined | symbol | null | bool | str | num =>
    cases h
    rfl
  | bigint n toJSON throws result ih =>
    rw [serializePlain] at h
    split at h
    · cases h
    · exact ih h
  | object shape throws result ih =>
    by_cases hpast : PastToJSON asked shape throws
    · rw [serializePlain_past hpast] at h
      rw [leftOut_past hpast]
      cases plainWritten_of_serializePlain h with
      | function hc => exact hc.symm
      | wrapper b j hc => exact hc.symm
      | array xs hc => exact hc.symm
      | members ms hc => exact hc.symm
    · obtain ⟨rfl, ht, hj, h⟩ := serializePlain_toJSON hpast h
      rw [leftOut, hj]
      exact ih _ h

/-! ## wrappers -/

section
variable {shape : Shape} {throws : Op → Bool} {result : Op → JsVal}

theorem wireTree_numberJson (x : F64) : WireTree (numberJson x) := by
  cases x with
  | fin q => exact ⟨.num (numberToString q), trivial, rfl⟩
  | nan | inf => exact .null

theorem unbox_eq_some {b : Boxed} {j : Json} (h : unbox shape throws b = some j) :
    (∃ x, j = numberJson x) ∨ (b = .string ∧ j = .str shape.text.units) ∨ ∃ b, j = .bool b := by
  cases b with
  | number =>
    rw [unbox] at h
    split at h
    · cases h
    · exact .inl ⟨_, (Option.some.inj h).symm⟩
  | string =>
    rw [unbox] at h
    split at h
    · cases h
    · exact .inr (.inl ⟨rfl, (Option.some.inj h).symm⟩)
  | boolean b => exact .inr (.inr ⟨b, (Option.some.inj h).symm⟩)
  | bigint => cases h

/-- An object that is written member by member or item by item is not what a wrapper holds. -/
theorem not_written_of_unbox {b : Boxed} {j : Json} (h : unbox shape throws b = some j) :
    ¬ Written shape throws result (some j) := by
  intro hw
  generalize heq : some j = out at hw
  rcases unbox_eq_some h with ⟨x, rfl⟩ | ⟨-, rfl⟩ | ⟨b, rfl⟩
  · cases x <;> cases hw <;> cases heq
  · cases hw <;> cases heq
  · cases hw <;> cases heq

theorem wireTree_unbox {b : Boxed} {j : Json} (ht : b = .string → Encoded shape.text.units)
    (h : unbox shape throws b = some j) : WireTree j := by
  rcases unbox_eq_some h with ⟨x, rfl⟩ | ⟨hb, rfl⟩ | ⟨b, rfl⟩
  · exact wireTree_numberJson x
  · exact .str (ht hb)
  · exact ⟨.bool b, trivial, rfl⟩

end

end NovaRuntime
