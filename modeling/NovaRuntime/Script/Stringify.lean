import NovaRuntime.Script.Value
import NovaRuntime.Host.Serde
import Mathlib.Data.List.Sort

/-!
# `JSON.stringify` with the replacer `wireJson` (`bootstrap.js`)

* `WireText`, `wireText`   what crosses the boundary as a string: no surrogate stands alone in it;
* `rebuild`     the loop of `wireJson`, which assigns the members of an object to a fresh one;
* `serialize`   the tree of a value, with `JSON.stringify`'s own steps around the replacer;
* `Serialises`  the values that `serialize` does not throw on;
* `serialize_wire`   what it gives is an encoded tree of scalar values.
-/

namespace NovaRuntime
open Lib

/-- no surrogate stands alone in these code units -/
def Encoded (units : Text) : Prop := ∃ t, Scalars t ∧ encode t = units

structure WireText where
  units : Text
  encoded : Encoded units

def JsString.toWellFormed (s : JsString) : WireText where
  units := Lib.toWellFormed s.units
  encoded := ⟨decodeLossy s.units, scalars_decodeLossy _ s.small, (toWellFormed_eq _ s.small).symm⟩

def WireText.toJs (s : WireText) : JsString where
  units := s.units
  small := by
    obtain ⟨t, ht, heq⟩ := s.encoded
    exact heq ▸ encode_small ht

def wireText (v : JsVal) : Js WireText := v.toText.map JsString.toWellFormed

/-! ## the members of a fresh object -/

/-- the number of a key that is an array index -/
def arrayIndex (key : Text) : Option Nat :=
  match Json.takeDigits key with
  | (ds, []) =>
    let n := Json.natOf ds
    if Json.natText n = key ∧ n < 2 ^ 32 - 1 then some n else none
  | _ => none

def indexLe {α : Type} (m m' : Text × α) : Prop :=
  (arrayIndex m.1).getD 0 ≤ (arrayIndex m'.1).getD 0

instance {α : Type} : DecidableRel (indexLe (α := α)) :=
  fun _ _ => inferInstanceAs (Decidable (_ ≤ _))

/-- the order in which an object's members are listed: array indices first -/
def ownOrder {α : Type} (ms : List (Text × α)) : List (Text × α) :=
  (ms.filter fun m => (arrayIndex m.1).isSome).insertionSort indexLe ++
    ms.filter fun m => (arrayIndex m.1).isNone

/-- an assignment to a member that is there or not -/
def assign {α : Type} (key : Text) (v : α) : List (Text × α) → List (Text × α)
  | [] => [(key, v)]
  | m :: ms => if m.1 = key then (key, v) :: ms else m :: assign key v ms

/-- The loop of `wireJson`: the members of `clean`, each with the key it was read from.  `__proto__` is
a key like any other: `Object.prototype` has no accessor of that name in this engine. -/
def rebuild (throws : Op → Bool) :
    List (Text × JsString) → List JsString → Option (List (Text × JsString))
  | clean, [] => some clean
  | clean, k :: ks =>
    if throws (.get k.units) then none else rebuild throws (assign k.toWellFormed.units k clean) ks

/-! ## serialising -/

/-- What `JSON.stringify` makes of a value that is not at the top: `none` if it throws, `some none`
if it leaves the value out.  `asked` says that the value came from `toJSON`, which is then not
asked again. -/
def serialize : (asked : Bool) → JsVal → Option (Option Json)
  | _, .undefined => some none
  | _, .null => some (some .null)
  | _, .bool b => some (some (.bool b))
  | _, .num (.fin q) => some (some (.num (numberToString q)))
  | _, .num .nan | _, .num (.inf _) => some (some .null)
  | _, .str s => some (some (.str s.toWellFormed.units))
  | _, .symbol _ => some none
  | asked, .bigint _ toJSON throws result =>
    if asked || throws || !toJSON then none else serialize true result
  | asked, .object shape throws result =>
    if !asked && throws .toJSON then none
    else if !asked && shape.toJSON then serialize true (result .toJSON)
    else if shape.callable then some none
    else if throws .isArray then none
    else if shape.isArray then
      if throws .enter || throws .length then none
      else ((List.range shape.length).mapM fun i =>
        if throws (.item i) then none
        else (serialize false (result (.item i))).map fun j => j.getD .null).map fun xs =>
          some (.arr xs)
    else if throws .keys then none
    else (rebuild throws [] shape.keys).bind fun clean =>
      if throws .enter then none
      else ((ownOrder clean).mapM fun m =>
        (serialize false (result (.get m.2.units))).map fun j => (m.1, j)).map fun ms =>
          some (.obj (ms.filterMap fun m => m.2.map fun j => (m.1, j)))

def stringify (v : JsVal) : Option Text :=
  (serialize false v).bind fun j => j.map Json.print

/-! ## the values that can be serialised -/

/-- `toJSON` is not asked, or has nothing to say -/
def PastToJSON (asked : Bool) (shape : Shape) (throws : Op → Bool) : Prop :=
  asked = false → throws .toJSON = false ∧ shape.toJSON = false

/-- Serialising throws nowhere: no read, trap or `toJSON` throws, no BigInt is met without a
`toJSON`, and no cycle and no end of the stack. -/
inductive Serialises : Bool → JsVal → Prop
  | undefined (asked) : Serialises asked .undefined
  | null (asked) : Serialises asked .null
  | bool (asked b) : Serialises asked (.bool b)
  | num (asked x) : Serialises asked (.num x)
  | str (asked s) : Serialises asked (.str s)
  | symbol (asked d) : Serialises asked (.symbol d)
  | bigint (n result) (h : Serialises true result) : Serialises false (.bigint n true false result)
  | toJSON (shape throws result) (ht : throws .toJSON = false) (hj : shape.toJSON = true)
      (h : Serialises true (result .toJSON)) : Serialises false (.object shape throws result)
  | function (asked shape throws result)
      (ha : PastToJSON asked shape throws)
      (hc : shape.callable = true) : Serialises asked (.object shape throws result)
  | array (asked shape throws result)
      (ha : PastToJSON asked shape throws)
      (hc : shape.callable = false) (hi : throws .isArray = false) (harr : shape.isArray = true)
      (he : throws .enter = false) (hl : throws .length = false)
      (hr : ∀ i < shape.length, throws (.item i) = false)
      (h : ∀ i < shape.length, Serialises false (result (.item i))) :
      Serialises asked (.object shape throws result)
  | members (asked shape throws result clean)
      (ha : PastToJSON asked shape throws)
      (hc : shape.callable = false) (hi : throws .isArray = false) (harr : shape.isArray = false)
      (hk : throws .keys = false) (hr : rebuild throws [] shape.keys = some clean)
      (he : throws .enter = false)
      (h : ∀ m ∈ clean, Serialises false (result (.get m.2.units))) :
      Serialises asked (.object shape throws result)

section
variable {α β : Type}

theorem mapM_isSome {f : α → Option β} {xs : List α} :
    (xs.mapM f).isSome ↔ ∀ x ∈ xs, (f x).isSome := by
  induction xs with
  | nil => simp
  | cons x xs ih =>
    rw [List.mapM_cons, List.forall_mem_cons, ← ih]
    cases f x <;> cases xs.mapM f <;> simp

theorem mem_of_mapM {f : α → Option β} {xs : List α} {ys : List β} (h : xs.mapM f = some ys) :
    ∀ y ∈ ys, ∃ x ∈ xs, f x = some y := by
  induction xs generalizing ys with
  | nil =>
    cases h
    simp
  | cons x xs ih =>
    rw [List.mapM_cons] at h
    obtain ⟨y, hy, h⟩ := Option.bind_eq_some_iff.mp h
    obtain ⟨ys', hys, h⟩ := Option.bind_eq_some_iff.mp h
    cases h
    refine List.forall_mem_cons.mpr ⟨⟨x, List.mem_cons_self, hy⟩, fun y hy => ?_⟩
    obtain ⟨x', hx', h'⟩ := ih hys y hy
    exact ⟨x', List.mem_cons_of_mem _ hx', h'⟩

theorem perm_ownOrder (ms : List (Text × α)) : (ownOrder ms).Perm ms := by
  have hnone : (fun m : Text × α => (arrayIndex m.1).isNone) =
      fun m => !(arrayIndex m.1).isSome := by
    funext m
    cases arrayIndex m.1 <;> rfl
  rw [ownOrder, hnone]
  exact ((List.perm_insertionSort indexLe _).append_right _).trans (List.filter_append_perm _ ms)

theorem mem_ownOrder {ms : List (Text × α)} {m : Text × α} : m ∈ ownOrder ms ↔ m ∈ ms :=
  (perm_ownOrder ms).mem_iff

end

theorem serialize_past {asked : Bool} {shape : Shape} {throws : Op → Bool} {result : Op → JsVal}
    (ha : PastToJSON asked shape throws) :
    serialize asked (.object shape throws result) = serialize true (.object shape throws result) := by
  cases asked with
  | true => rfl
  | false =>
    obtain ⟨ht, hj⟩ := ha rfl
    simp only [serialize, ht, hj, Bool.not_false, Bool.true_and, Bool.false_eq_true, ↓reduceIte,
      Bool.not_true, Bool.false_and]

theorem serialize_toJSON {asked : Bool} {shape : Shape} {throws : Op → Bool} {result : Op → JsVal}
    {j : Option Json} (ha : ¬ PastToJSON asked shape throws)
    (h : serialize asked (.object shape throws result) = some j) :
    asked = false ∧ throws .toJSON = false ∧ shape.toJSON = true ∧
      serialize true (result .toJSON) = some j := by
  simp only [PastToJSON, Classical.not_imp, not_and, Bool.not_eq_false] at ha
  obtain ⟨rfl, hjson⟩ := ha
  simp only [serialize, Bool.not_false, Bool.true_and] at h
  split at h
  · cases h
  · next ht =>
    have ht := Bool.eq_false_iff.mpr ht
    rw [if_pos (hjson ht)] at h
    exact ⟨rfl, ht, hjson ht, h⟩

theorem serialize_of_serialises {asked : Bool} {v : JsVal} (h : Serialises asked v) :
    (serialize asked v).isSome := by
  induction h with
  | undefined | null | bool | str | symbol => rfl
  | num asked x => cases x <;> rfl
  | bigint n result h ih => exact ih
  | toJSON shape throws result ht hj h ih =>
    simp only [serialize, ht, hj, Bool.not_false, Bool.true_and, Bool.false_eq_true, ↓reduceIte]
    exact ih
  | function asked shape throws result ha hc =>
    rw [serialize_past ha]
    simp [serialize, hc]
  | array asked shape throws result ha hc hi harr he hl hr h ih =>
    rw [serialize_past ha]
    simp only [serialize, hc, hi, harr, he, hl, Bool.not_true, Bool.false_and, Bool.false_eq_true,
      ↓reduceIte, Bool.or_self, Option.isSome_map]
    refine mapM_isSome.mpr fun i hi => ?_
    have hlt := List.mem_range.mp hi
    rw [if_neg (by simp [hr i hlt]), Option.isSome_map]
    exact ih i hlt
  | members asked shape throws result clean ha hc hi harr hk hr he h ih =>
    rw [serialize_past ha]
    simp only [serialize, hc, hi, harr, hk, hr, he, Bool.not_true, Bool.false_and,
      Bool.false_eq_true, ↓reduceIte, Option.bind_some, Option.isSome_map]
    refine mapM_isSome.mpr fun m hm => ?_
    rw [Option.isSome_map]
    exact ih m (mem_ownOrder.mp hm)

/-- the value after `JSON.stringify` asked for its `toJSON` -/
def JsVal.afterToJSON : JsVal → Option JsVal
  | .object shape throws result =>
    if throws .toJSON then none
    else some (if shape.toJSON then result .toJSON else .object shape throws result)
  | .bigint _ toJSON throws result => if throws || !toJSON then none else some result
  | v => some v

theorem serialize_afterToJSON (v : JsVal) :
    serialize false v = v.afterToJSON.bind (serialize true) := by
  cases v with
  | object shape throws result =>
    rw [JsVal.afterToJSON]
    cases ht : throws .toJSON with
    | true => simp [serialize, ht]
    | false =>
      cases hj : shape.toJSON with
      | true => simp [serialize, ht, hj]
      | false =>
        have hpast : PastToJSON false shape throws := fun _ => ⟨ht, hj⟩
        rw [serialize_past hpast]
        rfl
  | bigint n toJSON throws result => cases toJSON <;> cases throws <;> rfl
  | num x => cases x <;> rfl
  | _ => rfl

/-- what becomes of an object once its `toJSON` was asked -/
inductive Written (shape : Shape) (throws : Op → Bool) (result : Op → JsVal) :
    Option Json → Prop
  | function (hc : shape.callable = true) : Written shape throws result none
  | array (xs) (hc : shape.callable = false) (hi : throws .isArray = false)
      (harr : shape.isArray = true) (he : throws .enter = false) (hl : throws .length = false)
      (hxs : ((List.range shape.length).mapM fun i =>
        if throws (.item i) then none
        else (serialize false (result (.item i))).map fun j => j.getD .null) = some xs) :
      Written shape throws result (some (.arr xs))
  | members (clean ms) (hc : shape.callable = false) (hi : throws .isArray = false)
      (harr : shape.isArray = false) (hk : throws .keys = false)
      (hr : rebuild throws [] shape.keys = some clean) (he : throws .enter = false)
      (hms : ((ownOrder clean).mapM fun m =>
        (serialize false (result (.get m.2.units))).map fun j => (m.1, j)) = some ms) :
      Written shape throws result (some (.obj (ms.filterMap fun m => m.2.map fun j => (m.1, j))))

theorem written_of_serialize {shape : Shape} {throws : Op → Bool} {result : Op → JsVal}
    {j : Option Json} (h : serialize true (.object shape throws result) = some j) :
    Written shape throws result j := by
  simp only [serialize, Bool.not_true, Bool.false_and, Bool.false_eq_true, ↓reduceIte] at h
  split at h
  · next hc =>
    cases h
    exact .function hc
  · next hc =>
    have hc := Bool.eq_false_iff.mpr hc
    split at h
    · cases h
    · next hi =>
      have hi := Bool.eq_false_iff.mpr hi
      split at h
      · next harr =>
        split at h
        · cases h
        · next hel =>
          simp only [Bool.or_eq_true, not_or, Bool.not_eq_true] at hel
          obtain ⟨xs, hxs, rfl⟩ := Option.map_eq_some_iff.mp h
          exact .array xs hc hi harr hel.1 hel.2 hxs
      · next harr =>
        split at h
        · cases h
        · next hk =>
          obtain ⟨clean, hr, h⟩ := Option.bind_eq_some_iff.mp h
          split at h
          · cases h
          · next he =>
            obtain ⟨ms, hms, rfl⟩ := Option.map_eq_some_iff.mp h
            exact .members clean ms hc hi (Bool.eq_false_iff.mpr harr) (Bool.eq_false_iff.mpr hk) hr
              (Bool.eq_false_iff.mpr he) hms

theorem serialises_past {shape : Shape} {throws : Op → Bool} {result : Op → JsVal} {asked : Bool}
    (ha : PastToJSON asked shape throws)
    (ih : ∀ op a, (serialize a (result op)).isSome → Serialises a (result op))
    (h : (serialize true (.object shape throws result)).isSome) :
    Serialises asked (.object shape throws result) := by
  obtain ⟨j, hj⟩ := Option.isSome_iff_exists.mp h
  cases written_of_serialize hj with
  | function hc => exact .function asked shape throws result ha hc
  | array xs hc hi harr he hl hxs =>
    have hitem : ∀ i < shape.length, throws (.item i) = false ∧
        (serialize false (result (.item i))).isSome := by
      intro i hlt
      have hs := mapM_isSome.mp (Option.isSome_of_eq_some hxs) i (List.mem_range.mpr hlt)
      split at hs
      · cases hs
      · next hr =>
        rw [Option.isSome_map] at hs
        exact ⟨Bool.eq_false_iff.mpr hr, hs⟩
    exact .array asked shape throws result ha hc hi harr he hl (fun i hlt => (hitem i hlt).1)
      fun i hlt => ih _ _ (hitem i hlt).2
  | members clean ms hc hi harr hk hr he hms =>
    refine .members asked shape throws result clean ha hc hi harr hk hr he fun m hm => ih _ _ ?_
    have hs := mapM_isSome.mp (Option.isSome_of_eq_some hms) m (mem_ownOrder.mpr hm)
    rwa [Option.isSome_map] at hs

theorem serialises_of_serialize {asked : Bool} {v : JsVal} (h : (serialize asked v).isSome) :
    Serialises asked v := by
  induction v generalizing asked with
  | undefined => exact .undefined asked
  | null => exact .null asked
  | bool b => exact .bool asked b
  | num x => exact .num asked x
  | str s => exact .str asked s
  | symbol d => exact .symbol asked d
  | bigint n toJSON throws result ih =>
    rw [serialize] at h
    split at h
    · cases h
    · next hno =>
      simp only [Bool.or_eq_true, Bool.not_eq_true', not_or, Bool.not_eq_true,
        Bool.not_eq_false] at hno
      obtain ⟨⟨rfl, rfl⟩, rfl⟩ := hno
      exact .bigint n result (ih h)
  | object shape throws result ih =>
    have hrest : ∀ op a, (serialize a (result op)).isSome → Serialises a (result op) :=
      fun op a hs => ih op hs
    by_cases hpast : PastToJSON asked shape throws
    · rw [serialize_past hpast] at h
      exact serialises_past hpast hrest h
    · obtain ⟨j, h⟩ := Option.isSome_iff_exists.mp h
      obtain ⟨rfl, ht, hj, h⟩ := serialize_toJSON hpast h
      exact .toJSON shape throws result ht hj (ih _ (by rw [h]; rfl))

theorem serialize_isSome_iff {asked : Bool} {v : JsVal} :
    (serialize asked v).isSome ↔ Serialises asked v :=
  ⟨serialises_of_serialize, serialize_of_serialises⟩

/-! ## what crosses the boundary -/

/-- a tree whose strings and keys are encoded texts -/
def WireTree (j : Json) : Prop := ∃ t, Json.ScalarTree t ∧ Json.map encode t = j

theorem WireTree.null : WireTree .null := ⟨.null, trivial, rfl⟩

theorem WireTree.str {s : Text} (h : Encoded s) : WireTree (.str s) := by
  obtain ⟨t, ht, rfl⟩ := h
  exact ⟨.str t, ht, rfl⟩

theorem WireTree.arr {xs : List Json} (h : ∀ x ∈ xs, WireTree x) : WireTree (.arr xs) := by
  have hitems : ∃ ts, Json.ScalarItems ts ∧ Json.mapItems encode ts = xs := by
    induction xs with
    | nil => exact ⟨[], trivial, rfl⟩
    | cons x xs ih =>
      obtain ⟨hx, hxs⟩ := List.forall_mem_cons.mp h
      obtain ⟨t, ht, rfl⟩ := hx
      obtain ⟨ts, hts, rfl⟩ := ih hxs
      exact ⟨t :: ts, ⟨ht, hts⟩, rfl⟩
  obtain ⟨ts, hts, rfl⟩ := hitems
  exact ⟨.arr ts, hts, rfl⟩

theorem WireTree.obj {ms : List (Text × Json)} (h : ∀ m ∈ ms, Encoded m.1 ∧ WireTree m.2) :
    WireTree (.obj ms) := by
  have hmembers : ∃ ts, Json.ScalarMembers ts ∧ Json.mapMembers encode ts = ms := by
    induction ms with
    | nil => exact ⟨[], trivial, rfl⟩
    | cons m ms ih =>
      obtain ⟨⟨hk, hx⟩, hms⟩ := List.forall_mem_cons.mp h
      obtain ⟨k, hk, hkey⟩ := hk
      obtain ⟨t, ht, hval⟩ := hx
      obtain ⟨ts, hts, rfl⟩ := ih hms
      refine ⟨(k, t) :: ts, ⟨hk, ht, hts⟩, ?_⟩
      rw [Json.mapMembers, hkey, hval]
  obtain ⟨ts, hts, rfl⟩ := hmembers
  exact ⟨.obj ts, hts, rfl⟩

theorem assign_new {α : Type} {key : Text} {v : α} {ms : List (Text × α)}
    (h : key ∉ ms.map Prod.fst) : assign key v ms = ms ++ [(key, v)] := by
  induction ms with
  | nil => rfl
  | cons m ms ih =>
    rw [List.map_cons, List.mem_cons, not_or] at h
    rw [assign, if_neg (Ne.symm h.1), ih h.2, List.cons_append]

theorem foldl_assign {α : Type} {ms acc : List (Text × α)}
    (h : (acc.map Prod.fst ++ ms.map Prod.fst).Nodup) :
    ms.foldl (fun acc m => assign m.1 m.2 acc) acc = acc ++ ms := by
  induction ms generalizing acc with
  | nil => rw [List.foldl_nil, List.append_nil]
  | cons m ms ih =>
    have hnew : m.1 ∉ acc.map Prod.fst := by
      intro hm
      exact List.disjoint_of_nodup_append h hm List.mem_cons_self
    rw [List.foldl_cons, assign_new hnew, ih, List.append_assoc, List.singleton_append]
    simpa using h

theorem mem_assign {α : Type} {key : Text} {v : α} {ms : List (Text × α)} :
    ∀ m ∈ assign key v ms, m = (key, v) ∨ m ∈ ms := by
  induction ms with
  | nil => simp [assign]
  | cons m ms ih =>
    intro m' hm
    rw [assign] at hm
    split at hm
    · exact (List.mem_cons.mp hm).imp_right (List.mem_cons_of_mem _)
    · rcases List.mem_cons.mp hm with rfl | hm
      · exact .inr List.mem_cons_self
      · exact (ih m' hm).imp_right (List.mem_cons_of_mem _)

theorem rebuild_encoded {throws : Op → Bool} {clean clean' : List (Text × JsString)}
    {ks : List JsString} (hc : ∀ m ∈ clean, Encoded m.1)
    (h : rebuild throws clean ks = some clean') : ∀ m ∈ clean', Encoded m.1 := by
  induction ks generalizing clean with
  | nil =>
    cases h
    exact hc
  | cons k ks ih =>
    rw [rebuild] at h
    split at h
    · cases h
    · refine ih (fun m hm => ?_) h
      rcases mem_assign m hm with rfl | hm
      · exact k.toWellFormed.encoded
      · exact hc m hm

/-- Keys that are well formed and distinct become members one after the other. -/
theorem rebuild_distinct {throws : Op → Bool} {clean : List (Text × JsString)} {ks : List JsString}
    (hget : ∀ k ∈ ks, throws (.get k.units) = false) (hwf : ∀ k ∈ ks, k.toWellFormed.units = k.units)
    (hnd : (clean.map Prod.fst ++ ks.map JsString.units).Nodup) :
    rebuild throws clean ks = some (clean ++ ks.map fun k => (k.units, k)) := by
  induction ks generalizing clean with
  | nil => exact congrArg some (List.append_nil clean).symm
  | cons k ks ih =>
    obtain ⟨hthrows, hget⟩ := List.forall_mem_cons.mp hget
    obtain ⟨hk, hwf⟩ := List.forall_mem_cons.mp hwf
    have hnew : k.units ∉ clean.map Prod.fst :=
      fun hmem => List.disjoint_of_nodup_append hnd hmem List.mem_cons_self
    rw [rebuild, hthrows, if_neg (by decide), hk, assign_new hnew, ih hget hwf, List.append_assoc]
    · rfl
    · simpa using hnd

/-- What is serialised can be read: its texts are encoded. -/
theorem serialize_wire {asked : Bool} {v : JsVal} {j : Json} (h : serialize asked v = some (some j)) :
    WireTree j := by
  induction v generalizing asked j with
  | undefined | symbol => cases h
  | null =>
    cases h
    exact .null
  | bool b =>
    cases h
    exact ⟨.bool b, trivial, rfl⟩
  | num x =>
    cases x with
    | fin q =>
      cases h
      exact ⟨.num (numberToString q), trivial, rfl⟩
    | nan | inf =>
      cases h
      exact .null
  | str s =>
    cases h
    exact .str s.toWellFormed.encoded
  | bigint n toJSON throws result ih =>
    rw [serialize] at h
    split at h
    · cases h
    · exact ih h
  | object shape throws result ih =>
    by_cases hpast : PastToJSON asked shape throws
    · rw [serialize_past hpast] at h
      cases written_of_serialize h with
      | array xs hc hi harr he hl hxs =>
        refine .arr fun x hx => ?_
        obtain ⟨i, -, hi⟩ := mem_of_mapM hxs x hx
        split at hi
        · cases hi
        · obtain ⟨j, hj, rfl⟩ := Option.map_eq_some_iff.mp hi
          cases j with
          | none => exact .null
          | some j => exact ih _ hj
      | members clean ms hc hi harr hk hr he hms =>
        refine .obj fun m hm => ?_
        obtain ⟨m', hm', hsome⟩ := List.mem_filterMap.mp hm
        obtain ⟨j, hj, rfl⟩ := Option.map_eq_some_iff.mp hsome
        obtain ⟨m₀, hm₀, heq⟩ := mem_of_mapM hms m' hm'
        obtain ⟨j', hj', rfl⟩ := Option.map_eq_some_iff.mp heq
        cases hj
        exact ⟨rebuild_encoded (by simp) hr m₀ (mem_ownOrder.mp hm₀), ih _ hj'⟩
    · obtain ⟨rfl, ht, hj, h⟩ := serialize_toJSON hpast h
      exact ih _ h

end NovaRuntime
