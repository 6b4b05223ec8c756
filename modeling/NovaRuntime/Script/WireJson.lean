import NovaRuntime.Script.PlainJson

/-!
# What `wireJson` changes (`bootstrap.js`)

`JSON.stringify(value, wireJson)` beside `JSON.stringify(value)`.  The replacer is to do nothing
but replace lone surrogates.

* `WellFormedTexts`   no string and no property name that is serialised has a lone surrogate;
* `KeepsText`   the text holds no lone surrogate, and is the plain text if the value held none;
* `Same`   the values that the replacer passes on unchanged;
* `serialize_plain_iff`   the tree of a value is the plain one for these values;
* `keepsText_iff`   and so is the text, and of no others.

`wireJson` gives a fresh object for an object that is no array.  That object wraps no primitive
value, and its members come in the order of a plain object.
-/

namespace NovaRuntime
open Lib

/-! ## what the replacer is to keep -/

/-- No string and no property name has a lone surrogate, along what is serialised.  The names of an
object's own properties are distinct, as the language has them. -/
def WellFormedTexts : (asked : Bool) → JsVal → Prop
  | _, .undefined | _, .null | _, .bool _ | _, .num _ | _, .symbol _ => True
  | _, .str s => Encoded s.units
  | _, .bigint _ _ _ result => WellFormedTexts true result
  | asked, .object shape _ result =>
    if !asked && shape.toJSON then WellFormedTexts true (result .toJSON)
    else shape.callable = true ∨
      (shape.boxed = some .string → Encoded shape.text.units) ∧ (shape.boxed = none →
        if shape.isArray then ∀ i < shape.length, WellFormedTexts false (result (.item i))
        else (shape.keys.map JsString.units).Nodup ∧
          ∀ k ∈ shape.keys, Encoded k.units ∧ WellFormedTexts false (result (.get k.units)))

/-- no surrogate stands alone in a JSON text, neither itself nor as an escape -/
def NoLoneSurrogate (t : Text) : Prop := Encoded t ∧ ∃ j, Json.parse t = some j ∧ WireTree j

/-- `wireJson` changes nothing but lone surrogates: `text` is what the value is without it -/
def KeepsText (v : JsVal) (text : Text) : Prop :=
  (∀ t, stringify v = some t → NoLoneSurrogate t) ∧
    (WellFormedTexts false v → stringify v = some text)

/-! ## the values that are passed on -/

/-- a plain object may have these two keys in this order -/
def Before (k k' : Text) : Prop :=
  match arrayIndex k, arrayIndex k' with
  | some n, some n' => n ≤ n'
  | none, some _ => False
  | _, none => True

def isWritten (result : Op → JsVal) (k : JsString) : Bool := !leftOut false (result (.get k.units))

/-- The values that `wireJson` passes on: no wrapper is met, and the members of an object that are
written come in the order of a plain one. -/
def Same : (asked : Bool) → JsVal → Prop
  | _, .undefined | _, .null | _, .bool _ | _, .num _ | _, .str _ | _, .symbol _ => True
  | _, .bigint _ _ _ result => Same true result
  | asked, .object shape _ result =>
    if !asked && shape.toJSON then Same true (result .toJSON)
    else shape.callable = true ∨ shape.boxed = none ∧
      if shape.isArray then ∀ i < shape.length, Same false (result (.item i))
      else ((shape.keys.filter (isWritten result)).map JsString.units).Pairwise Before ∧
        ∀ k ∈ shape.keys, Same false (result (.get k.units))

/-! ## the order of the members -/

section
variable {α β : Type}

theorem filter_orderedInsert {r : α → α → Prop} [DecidableRel r] [IsTrans α r] (p : α → Bool) (a : α)
    {l : List α} (h : l.Pairwise r) : (l.orderedInsert r a).filter p =
      if p a then (l.filter p).orderedInsert r a else l.filter p := by
  induction l with
  | nil => cases hp : p a <;> simp [hp]
  | cons b l ih =>
    obtain ⟨hb, hl⟩ := List.pairwise_cons.mp h
    by_cases hab : r a b
    · rw [List.orderedInsert_cons_of_le r l hab, List.filter_cons]
      have hall : ∀ x ∈ (b :: l).filter p, r a x := by
        intro x hx
        rcases List.mem_cons.mp (List.mem_filter.mp hx).1 with rfl | hx
        · exact hab
        · exact IsTrans.trans a b x hab (hb x hx)
      cases hp : p a with
      | false => rw [if_neg (by decide), if_neg (by decide)]
      | true =>
        rw [if_pos rfl, if_pos rfl]
        cases hf : (b :: l).filter p with
        | nil => rfl
        | cons x xs =>
          rw [hf] at hall
          exact (List.orderedInsert_cons_of_le r xs (hall x List.mem_cons_self)).symm
    · rw [List.orderedInsert_of_not_le r l hab, List.filter_cons, List.filter_cons, ih hl]
      cases hp : p a with
      | false => rfl
      | true =>
        cases p b with
        | false => rfl
        | true => exact (List.orderedInsert_of_not_le r _ hab).symm

theorem filter_insertionSort {r : α → α → Prop} [DecidableRel r] [IsTrans α r] [Std.Total r]
    (p : α → Bool) (l : List α) :
    (l.insertionSort r).filter p = (l.filter p).insertionSort r := by
  induction l with
  | nil => rfl
  | cons a l ih =>
    rw [List.insertionSort_cons, filter_orderedInsert p a (List.pairwise_insertionSort r l), ih,
      List.filter_cons]
    split
    · rw [List.insertionSort_cons]
    · rfl

instance : IsTrans (Text × α) indexLe := ⟨fun _ _ _ => Nat.le_trans⟩
instance : Std.Total (indexLe (α := α)) := ⟨fun _ _ => Nat.le_total _ _⟩

theorem filter_ownOrder (p : Text × α → Bool) (ms : List (Text × α)) :
    (ownOrder ms).filter p = ownOrder (ms.filter p) := by
  rw [ownOrder, ownOrder, List.filter_append, filter_insertionSort, List.filter_comm,
    List.filter_comm p]

theorem pairwise_ownOrder (ms : List (Text × α)) :
    (ownOrder ms).Pairwise fun m m' => Before m.1 m'.1 := by
  have hindexed : ∀ m ∈ (ms.filter fun m => (arrayIndex m.1).isSome).insertionSort indexLe,
      (arrayIndex m.1).isSome := fun m hm =>
    (List.mem_filter.mp ((List.mem_insertionSort indexLe).mp hm)).2
  have hnames : ∀ m ∈ ms.filter fun m => (arrayIndex m.1).isNone, arrayIndex m.1 = none :=
    fun m hm => Option.isNone_iff_eq_none.mp (List.mem_filter.mp hm).2
  refine List.pairwise_append.mpr ⟨?_, ?_, fun m hm m' hm' => ?_⟩
  · refine (List.pairwise_insertionSort indexLe _).imp_of_mem fun {m m'} hm hm' hle => ?_
    obtain ⟨n, hn⟩ := Option.isSome_iff_exists.mp (hindexed m hm)
    obtain ⟨n', hn'⟩ := Option.isSome_iff_exists.mp (hindexed m' hm')
    simpa [indexLe, Before, hn, hn'] using hle
  · refine List.pairwise_of_forall_mem_list fun m hm m' hm' => ?_
    simp [Before, hnames m hm, hnames m' hm']
  · obtain ⟨n, hn⟩ := Option.isSome_iff_exists.mp (hindexed m hm)
    simp [Before, hn, hnames m' hm']

theorem ownOrder_eq {ms : List (Text × α)} (h : ms.Pairwise fun m m' => Before m.1 m'.1) :
    ownOrder ms = ms := by
  have hsorted : (ms.filter fun m => (arrayIndex m.1).isSome).Pairwise indexLe := by
    refine (h.filter _).imp_of_mem fun {m m'} hm hm' hbefore => ?_
    obtain ⟨n, hn⟩ := Option.isSome_iff_exists.mp (List.mem_filter.mp hm).2
    obtain ⟨n', hn'⟩ := Option.isSome_iff_exists.mp (List.mem_filter.mp hm').2
    simpa [indexLe, Before, hn, hn'] using hbefore
  rw [ownOrder, hsorted.insertionSort_eq]
  induction ms with
  | nil => rfl
  | cons m ms ih =>
    obtain ⟨hm, hms⟩ := List.pairwise_cons.mp h
    cases hi : arrayIndex m.1 with
    | some n =>
      simp only [List.filter_cons, hi, Option.isSome_some, Option.isNone_some, ↓reduceIte,
        List.cons_append, Bool.false_eq_true]
      rw [ih hms (by simpa [List.filter_cons, hi] using (List.pairwise_cons.mp
        (by simpa [List.filter_cons, hi] using hsorted)).2)]
    | none =>
      -- no array index comes after a name
      have hnone : ∀ m' ∈ m :: ms, arrayIndex m'.1 = none := by
        refine List.forall_mem_cons.mpr ⟨hi, fun m' hm' => ?_⟩
        have hbefore := hm m' hm'
        cases hi' : arrayIndex m'.1 with
        | none => rfl
        | some n => simp [Before, hi, hi'] at hbefore
      rw [List.filter_eq_nil_iff.mpr fun m' hm' => by simp [hnone m' hm'],
        List.filter_eq_self.mpr fun m' hm' => by simp [hnone m' hm'], List.nil_append]

end

/-! ## lists of results -/

section
variable {α β γ : Type}

theorem mapM_eq_iff {f g : α → Option β} {xs : List α} {ys : List β} (h : xs.mapM f = some ys) :
    xs.mapM g = some ys ↔ ∀ x ∈ xs, g x = f x := by
  induction xs generalizing ys with
  | nil => simpa using h
  | cons x xs ih =>
    rw [List.mapM_cons] at h
    obtain ⟨y, hy, h⟩ := Option.bind_eq_some_iff.mp h
    obtain ⟨ys', hys, h⟩ := Option.bind_eq_some_iff.mp h
    cases h
    rw [List.forall_mem_cons, ← ih hys, hy, List.mapM_cons]
    cases hg : g x with
    | none => simp
    | some y' => cases xs.mapM g <;> simp

theorem some_of_mapM {f : α → Option β} {xs : List α} {ys : List β} (h : xs.mapM f = some ys) :
    ∀ x ∈ xs, ∃ y, f x = some y := fun x hx =>
  Option.isSome_iff_exists.mp (mapM_isSome.mp (Option.isSome_of_eq_some h) x hx)

/-- The members that a list of results writes, where `val` and `out` say what each result is. -/
theorem filterMap_of_mapM {F : α → Option (Option γ)} {name : α → β} {out : α → Bool} {val : α → γ}
    {xs : List α} {ms : List (β × Option γ)}
    (h : (xs.mapM fun x => (F x).map fun j => (name x, j)) = some ms)
    (hF : ∀ x ∈ xs, ∀ j, F x = some j → j = if out x then none else some (val x)) :
    (ms.filterMap fun m => m.2.map fun j => (m.1, j)) =
      (xs.filter fun x => !out x).map fun x => (name x, val x) := by
  induction xs generalizing ms with
  | nil =>
    cases h
    rfl
  | cons x xs ih =>
    rw [List.mapM_cons] at h
    obtain ⟨m, hm, h⟩ := Option.bind_eq_some_iff.mp h
    obtain ⟨ms', hms, h⟩ := Option.bind_eq_some_iff.mp h
    cases h
    obtain ⟨j, hj, rfl⟩ := Option.map_eq_some_iff.mp hm
    have hrest := ih hms fun x hx => hF x (List.mem_cons_of_mem _ hx)
    have hx := hF x List.mem_cons_self j hj
    cases ho : out x with
    | true =>
      rw [ho, if_pos rfl] at hx
      rw [List.filterMap_cons, hx, List.filter_cons, ho]
      exact hrest
    | false =>
      rw [ho, if_neg (by decide)] at hx
      rw [List.filterMap_cons, hx, List.filter_cons, ho]
      exact congrArg _ hrest

end

/-! ## the fresh object -/

def asMember (k : JsString) : Text × JsString := (k.units, k)

theorem toWellFormed_encoded {k : JsString} (h : Encoded k.units) : k.toWellFormed.units = k.units := by
  obtain ⟨t, ht, heq⟩ := h
  show toWellFormed k.units = k.units
  rw [← heq, toWellFormed_encode ht]

/-! ## the text is the plain one -/

/-- what the members of an object are written with -/
def memberValue (serialized : JsVal → Option (Option Json)) (result : Op → JsVal) (k : JsString) :
    Json :=
  ((serialized (result (.get k.units))).bind id).getD .null

theorem memberValue_spec {serialized : JsVal → Option (Option Json)} {result : Op → JsVal}
    (hout : ∀ v j, serialized v = some j → j.isNone = leftOut false v) (k : JsString)
    (j : Option Json) (h : serialized (result (.get k.units)) = some j) :
    j = if leftOut false (result (.get k.units)) then none
      else some (memberValue serialized result k) := by
  have hj := hout _ _ h
  rw [memberValue, h]
  cases j with
  | none =>
    rw [← hj]
    rfl
  | some j =>
    rw [← hj]
    rfl

theorem same_of_leftOut {asked : Bool} {v : JsVal} (h : leftOut asked v = true) : Same asked v := by
  induction v generalizing asked with
  | undefined | null | bool | num | str | symbol => trivial
  | bigint n toJSON throws result ih => exact ih h
  | object shape throws result ih =>
    rw [leftOut] at h
    rw [Same]
    split at h
    · next hj =>
      rw [if_pos hj]
      exact ih _ h
    · next hj =>
      rw [if_neg hj]
      exact .inl h

/-- An item that is left out is written as `null`, and that is no other value's text. -/
theorem getD_null_inj {j j' : Option Json} (hnone : j'.isNone = j.isNone) :
    j'.getD .null = j.getD .null ↔ j' = j := by
  cases j with
  | none =>
    cases j' with
    | none => exact iff_of_true rfl rfl
    | some j' => cases hnone
  | some j =>
    cases j' with
    | none => cases hnone
    | some j' => exact Option.some_inj.symm

section
variable {shape : Shape} {throws : Op → Bool} {result : Op → JsVal}

theorem array_same {xs : List Json} (hc : shape.callable = false) (hi : throws .isArray = false)
    (harr : shape.isArray = true) (he : throws .enter = false) (hl : throws .length = false)
    (hxs : ((List.range shape.length).mapM fun i =>
      if throws (.item i) then none
      else (serializePlain false (result (.item i))).map fun j => j.getD .null) = some xs)
    (ih : ∀ i j, serializePlain false (result (.item i)) = some j → i < shape.length →
      (serialize false (result (.item i)) = some j ↔ Same false (result (.item i)))) :
    serialize true (.object shape throws result) = some (some (.arr xs)) ↔
      ∀ i < shape.length, Same false (result (.item i)) := by
  simp only [serialize, Bool.not_true, Bool.false_and, Bool.false_eq_true, ↓reduceIte, hc, hi, harr,
    he, hl, Bool.or_self, Option.map_eq_some_iff, Option.some.injEq, Json.arr.injEq, exists_eq_right]
  rw [mapM_eq_iff hxs]
  refine forall_congr' fun i => ?_
  rw [List.mem_range]
  refine imp_congr_right fun hlt => ?_
  obtain ⟨x, hx⟩ := some_of_mapM hxs i (List.mem_range.mpr hlt)
  rw [hx]
  split at hx
  · cases hx
  · next hitem =>
    obtain ⟨j, hj, rfl⟩ := Option.map_eq_some_iff.mp hx
    rw [if_neg hitem, ← ih i j hj hlt]
    refine ⟨fun h => ?_, fun h => ?_⟩
    · obtain ⟨j', hj', heq⟩ := Option.map_eq_some_iff.mp h
      rw [hj', (getD_null_inj ((isNone_serialize hj').trans (isNone_serializePlain hj).symm)).mp heq]
    · rw [h, Option.map_some]

theorem serialize_members (hc : shape.callable = false) (hi : throws .isArray = false)
    (harr : shape.isArray = false) (he : throws .enter = false) (hk : throws .keys = false)
    (hget : ∀ k ∈ shape.keys, throws (.get k.units) = false)
    (hnd : (shape.keys.map JsString.units).Nodup) (henc : ∀ k ∈ shape.keys, Encoded k.units) :
    serialize true (.object shape throws result) =
      ((ownOrder (shape.keys.map asMember)).mapM fun m =>
        (serialize false (result (.get m.2.units))).map fun j => (m.1, j)).map fun ms =>
          some (.obj (ms.filterMap fun m => m.2.map fun j => (m.1, j))) := by
  have hclean : rebuild throws [] shape.keys = some (shape.keys.map asMember) :=
    rebuild_distinct hget (fun k hk => toWellFormed_encoded (henc k hk)) hnd
  simp only [serialize, Bool.not_true, Bool.false_and, Bool.false_eq_true, ↓reduceIte, hc, hi, harr,
    he, hk, hclean, Option.bind_some]

theorem filter_asMember (ks : List JsString) :
    (ownOrder (ks.map asMember)).filter (fun m => isWritten result m.2) =
      ownOrder ((ks.filter (isWritten result)).map asMember) := by
  rw [filter_ownOrder, List.filter_map]
  rfl

theorem wire_members {ks : List JsString} {ms : List (Text × Option Json)}
    (h : ((ownOrder (ks.map asMember)).mapM fun m =>
      (serialize false (result (.get m.2.units))).map fun j => (m.1, j)) = some ms) :
    (ms.filterMap fun m => m.2.map fun j => (m.1, j)) =
      (ownOrder ((ks.filter (isWritten result)).map asMember)).map fun m =>
        (m.1, memberValue (serialize false) result m.2) := by
  have hspec : ∀ m ∈ ownOrder (ks.map asMember), ∀ j,
      serialize false (result (.get m.2.units)) = some j →
        j = if leftOut false (result (.get m.2.units)) then none
          else some (memberValue (serialize false) result m.2) :=
    fun m _ => memberValue_spec (fun _ _ => isNone_serialize) m.2
  rw [filterMap_of_mapM h hspec, ← filter_asMember]
  rfl

theorem plainMembers_read {ms : List (Text × Option Json)} {k : JsString}
    (hms : (shape.keys.mapM fun k =>
      if throws (.get k.units) then none
      else (serializePlain false (result (.get k.units))).map fun j => (k.units, j)) = some ms)
    (hk : k ∈ shape.keys) :
    throws (.get k.units) = false ∧ ∃ j, serializePlain false (result (.get k.units)) = some j := by
  obtain ⟨x, hx⟩ := some_of_mapM hms k hk
  split at hx
  · cases hx
  · next hthrows =>
    obtain ⟨j, hj, -⟩ := Option.map_eq_some_iff.mp hx
    exact ⟨Bool.eq_false_iff.mpr hthrows, j, hj⟩

theorem plainMembers_written {ms : List (Text × Option Json)}
    (hms : (shape.keys.mapM fun k =>
      if throws (.get k.units) then none
      else (serializePlain false (result (.get k.units))).map fun j => (k.units, j)) = some ms) :
    (ms.filterMap fun m => m.2.map fun j => (m.1, j)) =
      (shape.keys.filter (isWritten result)).map fun k =>
        (k.units, memberValue (serializePlain false) result k) := by
  refine filterMap_of_mapM (F := fun k => serializePlain false (result (.get k.units))) ?_
    fun k _ => memberValue_spec (fun _ _ => isNone_serializePlain) k
  refine (mapM_eq_iff hms).mpr fun k hk => ?_
  rw [if_neg (by rw [(plainMembers_read hms hk).1]; decide)]

/-- If the members come out in the order of a plain object as they went in, they were in that order,
each with its value. -/
theorem order_of_members {ks : List JsString} {F G : JsString → Json}
    (heq : (ownOrder (ks.map asMember)).map (fun m => (m.1, F m.2)) = ks.map fun k => (k.units, G k)) :
    (ks.map JsString.units).Pairwise Before ∧ ∀ k ∈ ks, F k = G k := by
  have hnames : (ownOrder (ks.map asMember)).map Prod.fst = ks.map JsString.units := by
    have hfst := congrArg (List.map Prod.fst) heq
    rwa [List.map_map, List.map_map] at hfst
  have hord : (ks.map JsString.units).Pairwise Before := by
    rw [← hnames, List.pairwise_map]
    exact pairwise_ownOrder _
  rw [ownOrder_eq (by simpa [List.pairwise_map, asMember] using hord), List.map_map] at heq
  exact ⟨hord, fun k hk => (Prod.mk.inj (List.map_inj_left.mp heq k hk)).2⟩

theorem members_same {ms : List (Text × Option Json)} (hc : shape.callable = false)
    (hi : throws .isArray = false) (harr : shape.isArray = false) (he : throws .enter = false)
    (hk : throws .keys = false) (hnd : (shape.keys.map JsString.units).Nodup)
    (henc : ∀ k ∈ shape.keys, Encoded k.units)
    (hms : (shape.keys.mapM fun k =>
      if throws (.get k.units) then none
      else (serializePlain false (result (.get k.units))).map fun j => (k.units, j)) = some ms)
    (ih : ∀ k ∈ shape.keys, ∀ j, serializePlain false (result (.get k.units)) = some j →
      (serialize false (result (.get k.units)) = some j ↔ Same false (result (.get k.units)))) :
    serialize true (.object shape throws result) =
        some (some (.obj (ms.filterMap fun m => m.2.map fun j => (m.1, j)))) ↔
      ((shape.keys.filter (isWritten result)).map JsString.units).Pairwise Before ∧
        ∀ k ∈ shape.keys, Same false (result (.get k.units)) := by
  have hplain := fun k hk => (plainMembers_read hms (k := k) hk).2
  rw [serialize_members hc hi harr he hk (fun k hk => (plainMembers_read hms hk).1) hnd henc,
    plainMembers_written hms]
  constructor
  · intro h
    obtain ⟨ms', hms', h⟩ := Option.map_eq_some_iff.mp h
    obtain ⟨hord, hvalues⟩ := order_of_members
      ((wire_members hms').symm.trans (Json.obj.inj (Option.some.inj h)))
    refine ⟨hord, fun k hk => ?_⟩
    cases hw : isWritten result k with
    | false => exact same_of_leftOut (by simpa [isWritten] using hw)
    | true =>
      obtain ⟨m, hm⟩ := some_of_mapM hms' (asMember k) (mem_ownOrder.mpr (List.mem_map_of_mem hk))
      obtain ⟨j', hj', -⟩ := Option.map_eq_some_iff.mp hm
      have hj' : serialize false (result (.get k.units)) = some j' := hj'
      obtain ⟨j, hj⟩ := hplain k hk
      rw [← ih k hk j hj, hj', memberValue_spec (fun _ _ => isNone_serialize) k j' hj',
        memberValue_spec (fun _ _ => isNone_serializePlain) k j hj,
        hvalues k (List.mem_filter.mpr ⟨hk, hw⟩)]
  · rintro ⟨hord, hsame⟩
    have heq : ∀ k ∈ shape.keys, serialize false (result (.get k.units)) =
        serializePlain false (result (.get k.units)) := by
      intro k hk
      obtain ⟨j, hj⟩ := hplain k hk
      rw [hj, ih k hk j hj]
      exact hsame k hk
    have hsome : ((ownOrder (shape.keys.map asMember)).mapM fun m =>
        (serialize false (result (.get m.2.units))).map fun j => (m.1, j)).isSome := by
      refine mapM_isSome.mpr fun m hm => ?_
      obtain ⟨k, hk, rfl⟩ := List.mem_map.mp (mem_ownOrder.mp hm)
      obtain ⟨j, hj⟩ := hplain k hk
      show ((serialize false (result (.get k.units))).map _).isSome
      rw [heq k hk, hj]
      rfl
    obtain ⟨ms', hms'⟩ := Option.isSome_iff_exists.mp hsome
    rw [hms', Option.map_some, wire_members hms',
      ownOrder_eq (by simpa [List.pairwise_map, asMember] using hord), List.map_map]
    refine congrArg (fun l => some (some (Json.obj l))) (List.map_congr_left fun k hk => ?_)
    show (k.units, memberValue (serialize false) result k) = _
    rw [memberValue, heq k (List.mem_filter.mp hk).1]
    rfl

end

section
variable {asked : Bool} {shape : Shape} {throws : Op → Bool} {result : Op → JsVal}

theorem same_past (ha : PastToJSON asked shape throws) :
    Same asked (.object shape throws result) ↔ shape.callable = true ∨ shape.boxed = none ∧
      if shape.isArray then ∀ i < shape.length, Same false (result (.item i))
      else ((shape.keys.filter (isWritten result)).map JsString.units).Pairwise Before ∧
        ∀ k ∈ shape.keys, Same false (result (.get k.units)) := by
  rw [Same, past_asked ha, if_neg (by decide)]

theorem wellFormedTexts_past (ha : PastToJSON asked shape throws) :
    WellFormedTexts asked (.object shape throws result) ↔ shape.callable = true ∨
      (shape.boxed = some .string → Encoded shape.text.units) ∧ (shape.boxed = none →
        if shape.isArray then ∀ i < shape.length, WellFormedTexts false (result (.item i))
        else (shape.keys.map JsString.units).Nodup ∧
          ∀ k ∈ shape.keys, Encoded k.units ∧ WellFormedTexts false (result (.get k.units))) := by
  rw [WellFormedTexts, past_asked ha, if_neg (by decide)]

end

/-- The replacer leaves the tree of a value as it is for the values that it passes on. -/
theorem serialize_plain_iff {asked : Bool} {v : JsVal} {j : Option Json}
    (h : serializePlain asked v = some j) (hw : WellFormedTexts asked v) :
    serialize asked v = some j ↔ Same asked v := by
  induction v generalizing asked j with
  | undefined | null | bool | symbol =>
    cases h
    exact iff_of_true rfl trivial
  | num x =>
    cases h
    refine iff_of_true ?_ trivial
    cases x <;> rfl
  | str s =>
    cases h
    obtain ⟨t, ht, heq⟩ := hw
    refine iff_of_true ?_ trivial
    show some (some (Json.str (toWellFormed s.units))) = _
    rw [← heq, toWellFormed_encode ht]
  | bigint n toJSON throws result ih =>
    rw [serializePlain] at h
    rw [serialize]
    split at h
    · cases h
    · next hno =>
      rw [if_neg hno]
      exact ih h hw
  | object shape throws result ih =>
    by_cases hpast : PastToJSON asked shape throws
    · rw [serializePlain_past hpast] at h
      rw [wellFormedTexts_past hpast] at hw
      rw [serialize_past hpast, same_past hpast]
      cases plainWritten_of_serializePlain h with
      | function hc =>
        refine iff_of_true ?_ (.inl hc)
        simp only [serialize, Bool.not_true, Bool.false_and, Bool.false_eq_true, ↓reduceIte, hc]
      | wrapper b j hc hb hj =>
        rw [hc, hb]
        exact iff_of_false (fun hs => not_written_of_unbox hj (written_of_serialize hs)) (by simp)
      | array xs hc hb hi harr he hl hxs =>
        simp only [hc, hb, harr, Bool.false_eq_true, false_or, true_and, ↓reduceIte, reduceCtorEq,
          forall_const, false_imp_iff] at hw ⊢
        exact array_same hc hi harr he hl hxs fun i j hj hlt => ih _ hj (hw i hlt)
      | members ms hc hb hi harr he hk hms =>
        simp only [hc, hb, harr, Bool.false_eq_true, false_or, true_and, ↓reduceIte, reduceCtorEq,
          forall_const, false_imp_iff] at hw ⊢
        obtain ⟨hnd, hkeys⟩ := hw
        exact members_same hc hi harr he hk hnd (fun k hk => (hkeys k hk).1) hms
          fun k hk j hj => ih _ hj (hkeys k hk).2
    · obtain ⟨rfl, ht, hj, h⟩ := serializePlain_toJSON hpast h
      rw [WellFormedTexts, hj] at hw
      rw [serialize_afterToJSON, JsVal.afterToJSON, ht, hj, Same, hj]
      exact ih _ h hw

/-- What is well formed is serialised to encoded texts. -/
theorem serializePlain_wire {asked : Bool} {v : JsVal} {j : Json}
    (h : serializePlain asked v = some (some j)) (hw : WellFormedTexts asked v) : WireTree j := by
  induction v generalizing asked j with
  | undefined | symbol => cases h
  | null =>
    cases h
    exact .null
  | bool b =>
    cases h
    exact ⟨.bool b, trivial, rfl⟩
  | num x =>
    cases h
    exact wireTree_numberJson x
  | str s =>
    cases h
    exact .str hw
  | bigint n toJSON throws result ih =>
    rw [serializePlain] at h
    split at h
    · cases h
    · exact ih h hw
  | object shape throws result ih =>
    by_cases hpast : PastToJSON asked shape throws
    · rw [serializePlain_past hpast] at h
      rw [wellFormedTexts_past hpast] at hw
      cases plainWritten_of_serializePlain h with
      | wrapper b j hc hb hj =>
        rw [hc, hb] at hw
        have htext : b = .string → Encoded shape.text.units := fun h =>
          (hw.resolve_left (by decide)).1 (congrArg some h)
        exact wireTree_unbox htext hj
      | array xs hc hb hi harr he hl hxs =>
        simp only [hc, hb, harr, Bool.false_eq_true, false_or, true_and, ↓reduceIte, reduceCtorEq,
          forall_const, false_imp_iff] at hw
        refine .arr fun x hx => ?_
        obtain ⟨i, hmem, hi⟩ := mem_of_mapM hxs x hx
        split at hi
        · cases hi
        · obtain ⟨j, hj, rfl⟩ := Option.map_eq_some_iff.mp hi
          cases j with
          | none => exact .null
          | some j => exact ih _ hj (hw i (List.mem_range.mp hmem))
      | members ms hc hb hi harr he hk hms =>
        simp only [hc, hb, harr, Bool.false_eq_true, false_or, true_and, ↓reduceIte, reduceCtorEq,
          forall_const, false_imp_iff] at hw
        refine .obj fun m hm => ?_
        obtain ⟨m', hm', hsome⟩ := List.mem_filterMap.mp hm
        obtain ⟨j, hj, rfl⟩ := Option.map_eq_some_iff.mp hsome
        obtain ⟨k, hmem, heq⟩ := mem_of_mapM hms m' hm'
        split at heq
        · cases heq
        · obtain ⟨j', hj', rfl⟩ := Option.map_eq_some_iff.mp heq
          cases hj
          exact ⟨(hw.2 k hmem).1, ih _ hj' (hw.2 k hmem).2⟩
    · obtain ⟨rfl, ht, hj, h⟩ := serializePlain_toJSON hpast h
      rw [WellFormedTexts, hj] at hw
      exact ih _ h hw

theorem jsonText_injective {i j : Json} (hi : WireTree i) (hj : WireTree j)
    (h : jsonText i = jsonText j) : i = j := by
  rw [hi.jsonText, hj.jsonText] at h
  have hparse := congrArg Json.parse h
  rwa [Json.parse_print, Json.parse_print, Option.some.injEq] at hparse

theorem noLoneSurrogate_stringify {v : JsVal} {t : Text} (h : stringify v = some t) :
    NoLoneSurrogate t := by
  obtain ⟨j, hj, h⟩ := Option.bind_eq_some_iff.mp h
  obtain ⟨j, rfl, rfl⟩ := Option.map_eq_some_iff.mp h
  have hwire := serialize_wire hj
  exact ⟨hwire.encoded_print, j, Json.parse_print j, hwire⟩

/-- `wireJson` changes nothing but lone surrogates for exactly the values that hold some and those
that it passes on. -/
theorem keepsText_iff {v : JsVal} {text : Text} (h : stringifyPlain v = some text) :
    KeepsText v text ↔ (WellFormedTexts false v → Same false v) := by
  refine (and_iff_right fun _ => noLoneSurrogate_stringify).trans (forall_congr' fun hw => ?_)
  obtain ⟨j, hj, h⟩ := Option.bind_eq_some_iff.mp h
  obtain ⟨j, rfl, rfl⟩ := Option.map_eq_some_iff.mp h
  rw [← serialize_plain_iff hj hw, stringify_eq]
  refine ⟨fun hs => ?_, fun hs => by rw [hs]; rfl⟩
  obtain ⟨j', hj', hs⟩ := Option.bind_eq_some_iff.mp hs
  obtain ⟨j', rfl, htext⟩ := Option.map_eq_some_iff.mp hs
  rw [hj', jsonText_injective (serialize_wire hj') (serializePlain_wire hj hw) htext]

def booleanObject : JsVal :=
  .object
    { callable := false, isArray := false, isError := false, hasSuccess := false, toJSON := false
      keys := [], length := 0, text := .lit "true", number := .fin 1
      boxed := some (.boolean true) }
    (fun _ => false) fun _ => .undefined

/-- a text in an array in an object -/
def nestedText : JsVal := .plainObject [(.lit "a", .plainArray [.str (.lit "b"), .undefined])]

theorem keepsText_iff_nested : stringifyPlain nestedText = some (txt "\x7b\"a\":[\"b\",null]\x7d") ∧
    (KeepsText nestedText (txt "\x7b\"a\":[\"b\",null]\x7d") ↔
      (WellFormedTexts false nestedText → Same false nestedText)) :=
  ⟨by decide, keepsText_iff (by decide)⟩

/-- A wrapper is written as an object without members. -/
theorem a_wrapper_is_lost : ¬ ∀ v text, stringifyPlain v = some text → KeepsText v text := by
  intro h
  have hkeeps := (h booleanObject (txt "true") (by decide)).2
  have hwf : WellFormedTexts false booleanObject := .inr ⟨(fun h => by cases h), fun h => by cases h⟩
  exact absurd (hkeeps hwf) (by decide)

-- a member that `JSON.parse` makes
example : stringify (.plainObject [(.lit "__proto__", .null), (.lit "a", .null)]) =
    some (txt "\x7b\"__proto__\":null,\"a\":null\x7d") := by decide

end NovaRuntime
