import NovaRuntime.Script.Event
import NovaRuntime.Script.PlainJson

/-!
# Data that crosses as it is

What `JSON.parse` made is written again, with `wireJson` by `settle` and without it by the calls of
`bindings.js`.  `Data` is what is then written whole: no lone surrogate, each number in the notation
of the engine, each name once.

* `Plainly`      what the two ways of serialising have in common;
* `Crosses`      what is written of some data, up to the order of the members;
* `data_crosses`   all data crosses, by induction on its tree; none is left out.
-/

namespace NovaRuntime
open Lib

mutual
def Data : Json → Prop
  | .null | .bool _ => True
  | .num n => numberJson (numberOf n) = .num n
  | .str s => Scalars s
  | .arr xs => DataItems xs
  | .obj ms => (ms.map Prod.fst).Nodup ∧ DataMembers ms
def DataItems : List Json → Prop
  | [] => True
  | x :: xs => Data x ∧ DataItems xs
def DataMembers : List (Text × Json) → Prop
  | [] => True
  | (k, x) :: ms => Scalars k ∧ Data x ∧ DataMembers ms
end

/-! ## numbers and strings -/

theorem units_ofUnits_encode {s : Text} (h : Scalars s) :
    (JsString.ofUnits (encode s)).units = encode s :=
  JsString.units_ofUnits (encode_small h)

theorem toWellFormed_ofUnits {s : Text} (h : Scalars s) :
    (JsString.ofUnits (encode s)).toWellFormed.units = encode s :=
  (congrArg toWellFormed (units_ofUnits_encode h)).trans (toWellFormed_encode h)

theorem encode_injective {s t : Text} (hs : Scalars s) (ht : Scalars t) :
    encode s = encode t ↔ s = t := by
  refine ⟨fun h => ?_, congrArg encode⟩
  rw [← decodeLossy_encode hs, h, decodeLossy_encode ht]

/-- Every integer of less than 53 bits is written as it is. -/
theorem data_ofInt {i : Int} (h : i.natAbs < 2 ^ 53) : Data (.num (NumLit.ofInt i)) := by
  show numberJson (numberOf (NumLit.ofInt i)) = _
  rw [numberOf_ofInt h, numberJson, numberToString, if_pos (by simpa using h), Rat.num_intCast]

theorem perm_of_map {α β : Type} {f : α → β} {ys : List β} {xs : List α}
    (h : ys.Perm (xs.map f)) : ∃ xs' : List α, xs'.Perm xs ∧ ys = xs'.map f := by
  have hmap : List.Forall₂ (fun y x => y = f x) (xs.map f) xs := by
    rw [List.forall₂_map_left_iff]
    exact List.forall₂_same.mpr fun _ _ => rfl
  obtain ⟨xs', hys, hperm⟩ := List.perm_comp_forall₂ h hmap
  refine ⟨xs', hperm, ?_⟩
  rw [← List.forall₂_eq_eq_eq, List.forall₂_map_right_iff]
  exact hys

theorem exists_forall₂ {α β : Type} {R : α → β → Prop} {xs : List α}
    (h : ∀ x ∈ xs, ∃ y, R x y) : ∃ ys, List.Forall₂ R xs ys := by
  induction xs with
  | nil => exact ⟨[], .nil⟩
  | cons x xs ih =>
    obtain ⟨⟨y, hy⟩, hxs⟩ := List.forall_mem_cons.mp h
    obtain ⟨ys, hys⟩ := ih hxs
    exact ⟨y :: ys, .cons hy hys⟩

/-! ## the serialisers -/

theorem plainArray_plain (xs : List JsVal) :
    serializePlain false (.plainArray xs) =
      (xs.mapM fun x => (serializePlain false x).map fun j => j.getD .null).map fun js =>
        some (.arr js) := by
  have hmap := map_getD_range xs .undefined
  rw [JsVal.plainArray, serializePlain]
  simp only [Bool.not_false, Bool.true_and, Bool.false_eq_true, ↓reduceIte, Bool.or_self]
  conv_rhs => rw [← hmap, List.mapM_map]
  rfl

theorem plainObject_plain {ms : List (JsString × JsVal)} (h : (ms.map fun m => m.1.units).Nodup) :
    serializePlain false (.plainObject ms) =
      (ms.mapM fun m => (serializePlain false m.2).map fun j => (m.1.units, j)).map fun js =>
        some (.obj (js.filterMap fun m => m.2.map fun j => (m.1, j))) := by
  rw [JsVal.plainObject, serializePlain]
  simp only [Bool.not_false, Bool.true_and, Bool.false_eq_true, ↓reduceIte, Bool.or_self,
    List.mapM_map]
  congr 1
  refine mapM_congr fun m hm => ?_
  rw [Function.comp_apply]
  show (serializePlain false (JsVal.member m.1.units ms)).map _ = _
  rw [member_of_mem h hm]

/-- A serialiser that writes a plain value as it is, and the members of a plain object in some
order. -/
structure Plainly (serializer : JsVal → Option (Option Json)) : Prop where
  null : serializer .null = some (some .null)
  bool : ∀ b, serializer (.bool b) = some (some (.bool b))
  num : ∀ x, serializer (.num x) = some (some (numberJson x))
  str : ∀ s, Scalars s → serializer (.str (.ofUnits (encode s))) = some (some (.str (encode s)))
  arr : ∀ xs, serializer (.plainArray xs) =
    (xs.mapM fun x => (serializer x).map fun j => j.getD .null).map fun js => some (.arr js)
  obj : ∀ ms, (ms.map fun m => m.1.units).Nodup → (∀ m ∈ ms, m.1.toWellFormed.units = m.1.units) →
    ∃ own : List (JsString × JsVal), own.Perm ms ∧ serializer (.plainObject ms) =
      (own.mapM fun m => (serializer m.2).map fun j => (m.1.units, j)).map fun js =>
        some (.obj (js.filterMap fun m => m.2.map fun j => (m.1, j)))

theorem plainly_serialize : Plainly (serialize false) where
  null := rfl
  bool _ := rfl
  num x := by cases x <;> rfl
  str s hs := by rw [serialize, toWellFormed_ofUnits hs]
  arr := serialize_plainArray
  obj ms hnd hwf := by
    obtain ⟨own, hown, horder⟩ := perm_of_map (perm_ownOrder (ms.map fun m => (m.1.units, m.2)))
    refine ⟨own, hown, ?_⟩
    rw [serialize_plainObject hnd hwf, horder, List.mapM_map]
    rfl

theorem plainly_serializePlain : Plainly (serializePlain false) where
  null := rfl
  bool _ := rfl
  num _ := rfl
  str s hs := by rw [serializePlain, units_ofUnits_encode hs]
  arr := plainArray_plain
  obj ms hnd _ := ⟨ms, List.Perm.refl ms, plainObject_plain hnd⟩

/-! ## objects that `JSON.parse` made -/

theorem mapMembers_eq (f : Text → Text) (ms : List (Text × Json)) :
    Json.mapMembers f ms = ms.map fun m => (f m.1, Json.map f m.2) := by
  induction ms with
  | nil => rfl
  | cons m ms ih => rw [Json.mapMembers, ih, List.map_cons]

section
variable {ms : List (Text × Json)}

/-- the members of an object that was parsed, as the guest has them -/
def payloadMembers (ms : List (Text × Json)) : List (JsString × JsVal) :=
  parsedMembers (ofMembers (Json.mapMembers encode ms))

theorem ofJson_obj (ms : List (Text × Json)) :
    ofJson (Json.map encode (.obj ms)) = .plainObject (payloadMembers ms) := by
  rw [Json.map, ofJson, payloadMembers]

theorem payloadMembers_perm (hs : ∀ m ∈ ms, Scalars m.1) (hnd : (ms.map Prod.fst).Nodup) :
    (payloadMembers ms).Perm
      (ms.map fun m => (.ofUnits (encode m.1), ofJson (Json.map encode m.2))) := by
  have hof : ofMembers (Json.mapMembers encode ms) =
      ms.map fun m => (encode m.1, ofJson (Json.map encode m.2)) := by
    rw [ofMembers_eq, mapMembers_eq, List.map_map]
    rfl
  have hkeys : ((ms.map fun m => (encode m.1, ofJson (Json.map encode m.2))).map Prod.fst).Nodup := by
    rw [List.map_map]
    refine List.pairwise_map.mpr ((List.pairwise_map.mp hnd).imp_of_mem fun {m m'} hm hm' hne heq => ?_)
    exact hne ((encode_injective (hs m hm) (hs m' hm')).mp heq)
  rw [payloadMembers, hof, parsedMembers_nodup hkeys]
  refine ((perm_ownOrder _).map _).trans ?_
  rw [List.map_map]
  exact List.Perm.refl _

theorem nodup_payloadMembers (hs : ∀ m ∈ ms, Scalars m.1) (hnd : (ms.map Prod.fst).Nodup) :
    ((payloadMembers ms).map fun m => m.1.units).Nodup := by
  refine ((payloadMembers_perm hs hnd).map _).nodup_iff.mpr ?_
  rw [List.map_map]
  refine List.pairwise_map.mpr ((List.pairwise_map.mp hnd).imp_of_mem fun {m m'} hm hm' hne heq => ?_)
  dsimp only [Function.comp_apply] at heq
  rw [units_ofUnits_encode (hs m hm), units_ofUnits_encode (hs m' hm')] at heq
  exact hne ((encode_injective (hs m hm) (hs m' hm')).mp heq)

theorem wellFormed_payloadMembers (hs : ∀ m ∈ ms, Scalars m.1) (hnd : (ms.map Prod.fst).Nodup) :
    ∀ m ∈ payloadMembers ms, m.1.toWellFormed.units = m.1.units := by
  intro m hm
  obtain ⟨m', hm', rfl⟩ := List.mem_map.mp ((payloadMembers_perm hs hnd).mem_iff.mp hm)
  rw [toWellFormed_ofUnits (hs m' hm'), units_ofUnits_encode (hs m' hm')]

end

/-! ## what is written -/

/-- the value of `p` is written as the tree `t`, which the host reads as it would read `p` -/
structure Crosses (serializer : JsVal → Option (Option Json)) (p t : Json) : Prop where
  written : serializer (ofJson (Json.map encode p)) = some (some (Json.map encode t))
  scalar : Json.ScalarTree t
  value : toValue t = toValue p
  depth_eq : depth t = depth p

theorem depthMembers_perm {ms ms' : List (Text × Json)} (h : ms.Perm ms') :
    depthMembers ms = depthMembers ms' := by
  induction h with
  | nil => rfl
  | cons m _ ih => rw [depthMembers, depthMembers, ih]
  | swap m m' ms =>
    rw [depthMembers, depthMembers, depthMembers, depthMembers]
    exact max_left_comm _ _ _
  | trans _ _ ih ih' => exact ih.trans ih'

theorem toMembers_eq (ms : List (Text × Json)) :
    toMembers ms = ms.map fun m => (m.1, toValue m.2) := by
  induction ms with
  | nil => rfl
  | cons m ms ih => rw [toMembers, ih, List.map_cons]

section
variable {serializer : JsVal → Option (Option Json)} (hser : Plainly serializer)
include hser

theorem crosses_arr {xs ts : List Json} (h : List.Forall₂ (Crosses serializer) xs ts) :
    Crosses serializer (.arr xs) (.arr ts) := by
  have hall : ((ofItems (Json.mapItems encode xs)).mapM fun x =>
        (serializer x).map fun j => j.getD .null) = some (Json.mapItems encode ts) ∧
      Json.ScalarItems ts ∧ toValues ts = toValues xs ∧ depthItems ts = depthItems xs := by
    induction h with
    | nil => exact ⟨rfl, trivial, rfl, rfl⟩
    | cons hx _ ih =>
      obtain ⟨hw, hs, hv, hd⟩ := ih
      refine ⟨?_, ⟨hx.scalar, hs⟩, ?_, ?_⟩
      · rw [Json.mapItems, ofItems, List.mapM_cons, hx.written, hw]
        rfl
      · rw [toValues, toValues, hx.value, hv]
      · rw [depthItems, depthItems, hx.depth_eq, hd]
  obtain ⟨hw, hs, hv, hd⟩ := hall
  refine ⟨?_, hs, congrArg Json.arr hv, congrArg (1 + ·) hd⟩
  rw [Json.map, ofJson, hser.arr, hw]
  rfl

omit hser in
/-- the members that are written, in their order -/
theorem crosses_members {ms ts : List (Text × Json)}
    (h : List.Forall₂ (fun m t => Scalars m.1 ∧ t.1 = m.1 ∧ Crosses serializer m.2 t.2) ms ts) :
    ((ms.map fun m => (JsString.ofUnits (encode m.1), ofJson (Json.map encode m.2))).mapM fun m =>
        (serializer m.2).map fun j => (m.1.units, j)) =
          some (ts.map fun t => (encode t.1, some (Json.map encode t.2))) ∧
      Json.ScalarMembers ts ∧
      (ts.map fun t => (t.1, toValue t.2)) = (ms.map fun m => (m.1, toValue m.2)) ∧
      depthMembers ts = depthMembers ms := by
  induction h with
  | nil => exact ⟨rfl, trivial, rfl, rfl⟩
  | @cons m t _ _ hm _ ih =>
    obtain ⟨hkey, hkeys, hm⟩ := hm
    obtain ⟨hw, hs, hv, hd⟩ := ih
    refine ⟨?_, ⟨hkeys ▸ hkey, hm.scalar, hs⟩, ?_, ?_⟩
    · rw [List.map_cons, List.mapM_cons, hm.written, hw, List.map_cons, hkeys,
        units_ofUnits_encode hkey]
      rfl
    · rw [List.map_cons, List.map_cons, hm.value, hv, hkeys]
    · rw [depthMembers, depthMembers, hm.depth_eq, hd]

theorem crosses_obj {ms : List (Text × Json)} (hnd : (ms.map Prod.fst).Nodup)
    (h : ∀ m ∈ ms, Scalars m.1 ∧ ∃ t, Crosses serializer m.2 t) :
    ∃ t, Crosses serializer (.obj ms) t := by
  have hkeys : ∀ m ∈ ms, Scalars m.1 := fun m hm => (h m hm).1
  obtain ⟨own, hown, hwritten⟩ := hser.obj _ (nodup_payloadMembers hkeys hnd)
    (wellFormed_payloadMembers hkeys hnd)
  -- the members in the order in which they are written
  obtain ⟨ordered, hordered, horder⟩ := perm_of_map (hown.trans (payloadMembers_perm hkeys hnd))
  obtain ⟨ts, hts⟩ : ∃ ts : List (Text × Json), List.Forall₂
      (fun m t => Scalars m.1 ∧ t.1 = m.1 ∧ Crosses serializer m.2 t.2) ordered ts := by
    refine exists_forall₂ fun m hm => ?_
    obtain ⟨hkey, t, ht⟩ := h m (hordered.mem_iff.mp hm)
    exact ⟨(m.1, t), hkey, rfl, ht⟩
  obtain ⟨hw, hs, hv, hd⟩ := crosses_members hts
  have hvalues : ((ms.map fun m => (m.1, toValue m.2)).map Prod.fst).Nodup := by
    rw [List.map_map]
    exact hnd
  refine ⟨.obj ts, ?_, hs, ?_, ?_⟩
  · rw [ofJson_obj, hwritten, horder, hw, Option.map_some, List.filterMap_map, Json.map,
      mapMembers_eq, ← List.filterMap_eq_map]
    rfl
  · rw [toValue, toValue, toMembers_eq, toMembers_eq, hv]
    refine congrArg Json.obj (toMap_perm (toMap_sorted _) ?_)
    exact (hordered.map fun m => (m.1, toValue m.2)).trans (toMap_perm_self hvalues).symm
  · rw [depth, depth, hd, depthMembers_perm hordered]

end

mutual
theorem data_crosses {serializer : JsVal → Option (Option Json)} (hser : Plainly serializer) :
    ∀ p : Json, Data p → ∃ t, Crosses serializer p t
  | .null, _ => ⟨.null, hser.null, trivial, rfl, rfl⟩
  | .bool b, _ => ⟨.bool b, hser.bool b, trivial, rfl, rfl⟩
  | .num n, h => ⟨.num n, (hser.num _).trans (congrArg (fun j => some (some j)) h), trivial, rfl, rfl⟩
  | .str s, h => ⟨.str s, hser.str s h, h, rfl, rfl⟩
  | .arr xs, h => by
    obtain ⟨ts, hts⟩ := items_cross hser xs h
    exact ⟨.arr ts, crosses_arr hser hts⟩
  | .obj ms, h => crosses_obj hser h.1 (members_cross hser ms h.2)
theorem items_cross {serializer : JsVal → Option (Option Json)} (hser : Plainly serializer) :
    ∀ xs : List Json, DataItems xs → ∃ ts, List.Forall₂ (Crosses serializer) xs ts
  | [], _ => ⟨[], .nil⟩
  | x :: xs, h => by
    obtain ⟨t, ht⟩ := data_crosses hser x h.1
    obtain ⟨ts, hts⟩ := items_cross hser xs h.2
    exact ⟨t :: ts, .cons ht hts⟩
theorem members_cross {serializer : JsVal → Option (Option Json)} (hser : Plainly serializer) :
    ∀ ms : List (Text × Json), DataMembers ms →
      ∀ m ∈ ms, Scalars m.1 ∧ ∃ t, Crosses serializer m.2 t
  | [], _ => by simp
  | (_, x) :: ms, h =>
    List.forall_mem_cons.mpr ⟨⟨h.1, data_crosses hser x h.2.1⟩, members_cross hser ms h.2.2⟩
end

end NovaRuntime
