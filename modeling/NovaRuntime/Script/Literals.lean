import NovaRuntime.Script.Stringify

/-!
# Serialising what a literal or `JSON.parse` makes

* `serialize_plainArray`    the elements, one after the other;
* `serialize_plainObject`   the members, array indices first.
-/

namespace NovaRuntime
open Lib

section
variable {α β γ : Type}

theorem map_getD_range (xs : List α) (d : α) :
    (List.range xs.length).map (fun i => (xs[i]?).getD d) = xs := by
  refine List.ext_getElem (by simp) fun i h₁ h₂ => ?_
  rw [List.getElem_map, List.getElem_range, List.getElem?_eq_getElem h₂, Option.getD_some]

theorem mapM_congr {f g : α → Option β} {xs : List α} (h : ∀ x ∈ xs, f x = g x) :
    xs.mapM f = xs.mapM g := by
  induction xs with
  | nil => rfl
  | cons x xs ih =>
    rw [List.forall_mem_cons] at h
    rw [List.mapM_cons, List.mapM_cons, h.1, ih h.2]

theorem ownOrder_map (g : α → β) (ms : List (Text × α)) :
    ownOrder (ms.map fun m => (m.1, g m.2)) = (ownOrder ms).map fun m => (m.1, g m.2) := by
  rw [ownOrder, ownOrder, List.map_append, List.filter_map, List.filter_map]
  congr 1
  exact (List.map_insertionSort indexLe indexLe (fun m : Text × α => (m.1, g m.2)) _
    fun _ _ _ _ => Iff.rfl).symm

/-- keys that are no array index keep their order -/
theorem ownOrder_names {ms : List (Text × α)} (h : ∀ m ∈ ms, arrayIndex m.1 = none) :
    ownOrder ms = ms := by
  have hidx : ms.filter (fun m => (arrayIndex m.1).isSome) = [] :=
    List.filter_eq_nil_iff.mpr fun m hm => by simp [h m hm]
  have hname : ms.filter (fun m => (arrayIndex m.1).isNone) = ms :=
    List.filter_eq_self.mpr fun m hm => by simp [h m hm]
  rw [ownOrder, hidx, hname]
  rfl

end

theorem serialize_plainArray (xs : List JsVal) :
    serialize false (.plainArray xs) =
      (xs.mapM fun x => (serialize false x).map fun j => j.getD .null).map fun js =>
        some (.arr js) := by
  have hmap := map_getD_range xs .undefined
  rw [JsVal.plainArray, serialize]
  simp only [Bool.not_false, Bool.true_and, Bool.false_eq_true, ↓reduceIte, Bool.or_self]
  conv_rhs => rw [← hmap, List.mapM_map]
  rfl

theorem member_of_mem {ms : List (JsString × JsVal)}
    (hnd : (ms.map fun m => m.1.units).Nodup) {m : JsString × JsVal} (hm : m ∈ ms) :
    JsVal.member m.1.units ms = m.2 := by
  induction ms with
  | nil => cases hm
  | cons m' ms ih =>
    rw [List.map_cons, List.nodup_cons] at hnd
    rw [JsVal.member]
    rcases List.mem_cons.mp hm with rfl | hm
    · rw [if_pos rfl]
    · rw [if_neg, ih hnd.2 hm]
      intro heq
      exact hnd.1 (heq ▸ List.mem_map.mpr ⟨m, hm, rfl⟩)

theorem serialize_plainObject {ms : List (JsString × JsVal)}
    (hnd : (ms.map fun m => m.1.units).Nodup)
    (hwf : ∀ m ∈ ms, m.1.toWellFormed.units = m.1.units) :
    serialize false (.plainObject ms) =
      ((ownOrder (ms.map fun m => (m.1.units, m.2))).mapM fun m =>
        (serialize false m.2).map fun j => (m.1, j)).map fun js =>
          some (.obj (js.filterMap fun m => m.2.map fun j => (m.1, j))) := by
  -- each member with its key in front, to be put in order once
  let keyed : List (Text × (JsString × JsVal)) := ms.map fun m => (m.1.units, m)
  have hclean : rebuild (fun _ => false) [] (ms.map Prod.fst) =
      some (keyed.map fun m => (m.1, m.2.1)) := by
    rw [rebuild_distinct (fun _ _ => rfl) (by simpa using hwf)
      (by simpa [Function.comp_def] using hnd)]
    simp [keyed, Function.comp_def]
  have hvalues : (ms.map fun m => (m.1.units, m.2)) = keyed.map fun m => (m.1, m.2.2) := by
    simp [keyed, Function.comp_def]
  rw [hvalues, ownOrder_map, JsVal.plainObject, serialize]
  simp only [Bool.not_false, Bool.true_and, Bool.false_eq_true, ↓reduceIte, hclean,
    Option.bind_some, ownOrder_map, List.mapM_map]
  congr 1
  refine mapM_congr fun m hm => ?_
  obtain ⟨m', hm', rfl⟩ := List.mem_map.mp (mem_ownOrder.mp hm)
  have hval := member_of_mem hnd hm'
  simp only [Function.comp_apply, JsVal.readMember, hval]

/-! ## the glue's own literals -/

/-- a key that `wireJson` keeps, and in its place -/
def IsName (k : JsString) : Prop := k.toWellFormed.units = k.units ∧ arrayIndex k.units = none

theorem member_not_mem {key : Text} {ms : List (JsString × JsVal)}
    (h : ∀ m ∈ ms, m.1.units ≠ key) : JsVal.member key ms = .undefined := by
  induction ms with
  | nil => rfl
  | cons m ms ih =>
    rw [List.forall_mem_cons] at h
    rw [JsVal.member, if_neg h.1, ih h.2]

theorem serialize_names {ms : List (JsString × JsVal)}
    (hnd : (ms.map fun m => m.1.units).Nodup) (hn : ∀ m ∈ ms, IsName m.1) :
    serialize false (.plainObject ms) =
      (ms.mapM fun m => (serialize false m.2).map fun j => (m.1.units, j)).map fun js =>
        some (.obj (js.filterMap fun m => m.2.map fun j => (m.1, j))) := by
  rw [serialize_plainObject hnd fun m hm => (hn m hm).1, ownOrder_names, List.mapM_map]
  · rfl
  · intro m hm
    obtain ⟨m', hm', rfl⟩ := List.mem_map.mp hm
    exact (hn m' hm').2

end NovaRuntime
