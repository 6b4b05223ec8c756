import NovaRuntime.Lib.EcmaExpression
import Mathlib.Data.List.Perm.Basic
import Mathlib.Data.List.Nodup

/-!
# Ordinary objects of ECMAScript, and the expressions that make them

What the expressions of `Expr` evaluate to, with `Object.assign`, `Object.freeze` and
`Object.defineProperty` for functions, and functions of a host.

* `Value`, `Property`, `Obj`, `Heap`   a value, a data property, an object, the objects by address;
* `define`   a member of an object literal; `set` an assignment;
* `World`   the functions of the host, and the order in which the engine lists an object's members;
* `eval`   evaluation; it gives nothing where it throws or leaves this part of the language;
* `eval_literal`   an object literal whose values make no objects;
* `own_literal`, `own_assignFrom`, `own_frozen`   the own properties of what is made.

The global object is at address 0.  A host function gives a value of the host.  `__proto__` is a
property name like any other here: `Object.prototype` has no accessor of that name, and a literal
that names it makes a property of it.
-/

namespace Lib.EcmaScript

inductive Value (H : Type) where
  | undefined
  | null
  | bool (b : Bool)
  | str (s : Text)
  | ref (address : Nat)
  /-- `Object.prototype` -/
  | objectPrototype
  | host (h : H)

structure Property (H : Type) where
  value : Value H
  writable : Bool
  enumerable : Bool
  configurable : Bool

structure Obj (H : Type) where
  prototype : Value H
  props : List (Text × Property H)
  extensible : Bool

abbrev Heap (H : Type) := List (Obj H)

structure World (H : Type) where
  host : Text → List (Value H) → Option H
  order : List (Text × Property H) → List (Text × Property H)
  perm : ∀ props, (order props).Perm props

section
variable {H : Type}

/-! ## objects -/

def Obj.empty : Obj H := ⟨.objectPrototype, [], true⟩

def own (k : Text) (props : List (Text × Property H)) : Option (Property H) :=
  (props.find? fun m => m.1 = k).map Prod.snd

/-- a property in the place of the one that it replaces, or behind the others -/
def put (k : Text) (p : Property H) : List (Text × Property H) → List (Text × Property H)
  | [] => [(k, p)]
  | m :: ms => if m.1 = k then (k, p) :: ms else m :: put k p ms

/-- the property that an assignment or a literal makes -/
def data (v : Value H) : Property H := ⟨v, true, true, true⟩

namespace Obj

def define (k : Text) (v : Value H) (o : Obj H) : Obj H := { o with props := put k (data v) o.props }

/-- An assignment that throws when it fails, to an object whose prototype is `Object.prototype`; what
that has is writable. -/
def set (k : Text) (v : Value H) (o : Obj H) : Option (Obj H) :=
  match own k o.props with
  | some p =>
    if p.writable then some { o with props := put k { p with value := v } o.props } else none
  | none =>
    match o.prototype with
    | .objectPrototype => if !o.extensible then none else some (o.define k v)
    | _ => none

def frozen (o : Obj H) : Obj H where
  prototype := o.prototype
  props := o.props.map fun m => (m.1, { m.2 with writable := false, configurable := false })
  extensible := false

end Obj

/-! ## the functions of `Object` -/

def toBoolean : Value H → Bool
  | .undefined | .null => false
  | .bool b => b
  | .str s => s ≠ []
  | .ref _ | .objectPrototype | .host _ => true

/-- the members of a source of `Object.assign` -/
def assignFrom (w : World H) (source target : Obj H) : Option (Obj H) :=
  (w.order source.props).foldlM (fun o m => if m.2.enumerable then o.set m.1 m.2.value else some o)
    target

/-- one argument of `Object.assign` behind the target -/
def assignSource (w : World H) (target : Nat) (heap : Heap H) : Value H → Option (Heap H)
  | .undefined | .null => some heap
  | .ref address => (heap[address]?).bind fun source => (heap[target]?).bind fun o =>
    (assignFrom w source o).map (heap.set target)
  | _ => none

def objectAssign (w : World H) : List (Value H) → Heap H → Option (Value H × Heap H)
  | .ref target :: sources, heap =>
    (sources.foldlM (assignSource w target) heap).map fun heap => (.ref target, heap)
  | _, _ => none

def objectFreeze : List (Value H) → Heap H → Option (Value H × Heap H)
  | [.ref address], heap => (heap[address]?).map fun o => (.ref address, heap.set address o.frozen)
  | _, _ => none

/-- a field of a descriptor -/
def field (name : Text) (o : Obj H) : Value H :=
  match own name o.props with
  | some p => p.value
  | none => .undefined

/-- the data property that a descriptor describes -/
def toDescriptor (o : Obj H) : Option (Property H) :=
  match o.prototype with
  | .objectPrototype =>
    if (own (txt "get") o.props).isSome || (own (txt "set") o.props).isSome then none
    else some
      { value := field (txt "value") o
        writable := toBoolean (field (txt "writable") o)
        enumerable := toBoolean (field (txt "enumerable") o)
        configurable := toBoolean (field (txt "configurable") o) }
  | _ => none

/-- `Object.defineProperty` of a property that is not there yet -/
def objectDefineProperty : List (Value H) → Heap H → Option (Value H × Heap H)
  | [.ref address, .str k, .ref descriptor], heap =>
    ((heap[descriptor]?).bind toDescriptor).bind fun p => (heap[address]?).bind fun o =>
      if (own k o.props).isSome || !o.extensible then none
      else some (.ref address, heap.set address { o with props := o.props ++ [(k, p)] })
  | _, _ => none

/-! ## evaluation -/

def evalRef (name : Text) (path : List Text) : Option (Value H) :=
  if name = txt "globalThis" ∧ path = [] then some (.ref 0) else none

def evalCall (w : World H) (name : Text) (path : List Text) (args : List (Value H))
    (heap : Heap H) : Option (Value H × Heap H) :=
  if path = [] then (w.host name args).map fun h => (.host h, heap)
  else if name ≠ txt "Object" then none
  else if path = [txt "assign"] then objectAssign w args heap
  else if path = [txt "freeze"] then objectFreeze args heap
  else if path = [txt "defineProperty"] then objectDefineProperty args heap
  else none

mutual
def eval (w : World H) : Expr → Heap H → Option (Value H × Heap H)
  | .null, heap => some (.null, heap)
  | .bool b, heap => some (.bool b, heap)
  | .str s, heap => some (.str s, heap)
  | .ref name path, heap => (evalRef name path).map fun v => (v, heap)
  | .call name path as, heap => (evalArgs w as heap).bind fun p => evalCall w name path p.1 p.2
  | .object ms, heap =>
    (evalMembers w heap.length ms (heap ++ [.empty])).map fun heap' => (.ref heap.length, heap')
def evalArgs (w : World H) : List Expr → Heap H → Option (List (Value H) × Heap H)
  | [], heap => some ([], heap)
  | a :: as, heap => (eval w a heap).bind fun p =>
    (evalArgs w as p.2).map fun q => (p.1 :: q.1, q.2)
/-- the members of the object at an address -/
def evalMembers (w : World H) (address : Nat) : List (Text × Expr) → Heap H → Option (Heap H)
  | [], heap => some heap
  | m :: ms, heap => (eval w m.2 heap).bind fun p =>
    evalMembers w address ms (p.2.modify address fun o => o.define m.1 p.1)
end

/-- expression statements one after the other -/
def runScript (w : World H) (es : List Expr) (heap : Heap H) : Option (Heap H) :=
  es.foldlM (fun heap e => (eval w e heap).map Prod.snd) heap

/-! ## own properties -/

theorem own_put (k k' : Text) (p : Property H) (props : List (Text × Property H)) :
    own k' (put k p props) = if k' = k then some p else own k' props := by
  induction props with
  | nil =>
    by_cases hk : k' = k
    · simp [put, own, hk]
    · simp [put, own, hk, Ne.symm hk]
  | cons m props ih =>
    rw [put]
    split
    · next hm =>
      by_cases hk : k' = k
      · simp [own, hk]
      · rw [if_neg hk, own, own, List.find?_cons_of_neg, List.find?_cons_of_neg]
        · simpa [hm] using Ne.symm hk
        · simpa using Ne.symm hk
    · next hm =>
      by_cases hk : m.1 = k'
      · rw [own, own, List.find?_cons_of_pos (by simpa using hk), List.find?_cons_of_pos
          (by simpa using hk), if_neg fun h => hm (hk.trans h)]
      · have hne : ∀ ps, own k' (m :: ps) = own k' ps := fun ps => by
          rw [own, List.find?_cons_of_neg (by simpa using hk), ← own]
        rw [hne, hne, ih]

theorem mem_put {k : Text} {p : Property H} {props : List (Text × Property H)} :
    ∀ m ∈ put k p props, m = (k, p) ∨ m ∈ props := by
  induction props with
  | nil => simp [put]
  | cons m props ih =>
    intro m' hm
    rw [put] at hm
    split at hm
    · exact (List.mem_cons.mp hm).imp_right (List.mem_cons_of_mem _)
    · rcases List.mem_cons.mp hm with rfl | hm
      · exact .inr List.mem_cons_self
      · exact (ih m' hm).imp_right (List.mem_cons_of_mem _)

theorem nodup_put {k : Text} {p : Property H} {props : List (Text × Property H)}
    (h : (props.map Prod.fst).Nodup) : ((put k p props).map Prod.fst).Nodup := by
  induction props with
  | nil => exact List.nodup_singleton k
  | cons m props ih =>
    obtain ⟨hm, hprops⟩ := List.nodup_cons.mp h
    rw [put]
    split
    · next hk =>
      rw [List.map_cons, ← hk]
      exact h
    · next hk =>
      refine List.nodup_cons.mpr ⟨fun hmem => ?_, ih hprops⟩
      obtain ⟨m', hm', heq⟩ := List.mem_map.mp hmem
      rcases mem_put m' hm' with rfl | hm'
      · exact hk heq.symm
      · exact hm (heq ▸ List.mem_map_of_mem hm')

/-- What is found by its key is found in every order, where no key stands twice. -/
theorem find_perm {α : Type} {key : α → Text} {xs ys : List α} (h : xs.Perm ys)
    (hnd : (xs.map key).Nodup) (k : Text) :
    xs.find? (fun x => key x = k) = ys.find? fun x => key x = k := by
  have hunique : ∀ x ∈ xs, ∀ y ∈ xs, key x = key y → x = y := fun x hx y hy =>
    List.inj_on_of_nodup_map hnd hx hy
  cases hx : xs.find? fun x => key x = k with
  | none =>
    rw [eq_comm, List.find?_eq_none]
    rw [List.find?_eq_none] at hx
    exact fun y hy => hx y (h.mem_iff.mpr hy)
  | some x =>
    cases hy : ys.find? fun x => key x = k with
    | none =>
      rw [List.find?_eq_none] at hy
      exact absurd (List.find?_some hx) (hy x (h.mem_iff.mp (List.mem_of_find?_eq_some hx)))
    | some y =>
      have hkx : key x = k := by simpa using List.find?_some hx
      have hky : key y = k := by simpa using List.find?_some hy
      exact congrArg some (hunique x (List.mem_of_find?_eq_some hx) y
        (h.mem_iff.mpr (List.mem_of_find?_eq_some hy)) (hkx.trans hky.symm))

/-- data properties in a row -/
def Obj.defineAll (ms : List (Text × Value H)) (o : Obj H) : Obj H :=
  ms.foldl (fun o m => o.define m.1 m.2) o

/-- the last of these members with this key -/
def lastOf (k : Text) (ms : List (Text × Value H)) : Option (Property H) :=
  (ms.reverse.find? fun m => m.1 = k).map fun m => data m.2

theorem own_defineAll (k : Text) (ms : List (Text × Value H)) (o : Obj H) :
    own k (o.defineAll ms).props = (lastOf k ms).or (own k o.props) := by
  induction ms using List.reverseRecOn with
  | nil => rfl
  | append_singleton ms m ih =>
    rw [Obj.defineAll, List.foldl_append, ← Obj.defineAll, lastOf, List.reverse_concat]
    show own k (put m.1 (data m.2) (o.defineAll ms).props) = _
    rw [own_put]
    by_cases hk : k = m.1
    · rw [if_pos hk, List.find?_cons_of_pos (by simpa using hk.symm)]
      rfl
    · rw [if_neg hk, List.find?_cons_of_neg (by simpa using Ne.symm hk), ← lastOf, ih]

/-- what literals and assignments make of an object: its properties are theirs -/
structure Plain (o : Obj H) : Prop where
  nodup : (o.props.map Prod.fst).Nodup
  data : ∀ m ∈ o.props, m.2 = data m.2.value
  extensible : o.extensible = true

theorem plain_empty : Plain (.empty : Obj H) where
  nodup := List.nodup_nil
  data m hm := by cases hm
  extensible := rfl

theorem plain_define {o : Obj H} (h : Plain o) (k : Text) (v : Value H) : Plain (o.define k v) where
  nodup := nodup_put h.nodup
  data m hm := by
    rcases mem_put m hm with rfl | hm
    · rfl
    · exact h.data m hm
  extensible := h.extensible

theorem own_eq_some {o : Obj H} (h : Plain o) {k : Text} {p : Property H}
    (hp : own k o.props = some p) : p = Lib.EcmaScript.data p.value := by
  obtain ⟨m, hm, rfl⟩ := Option.map_eq_some_iff.mp hp
  exact h.data m (List.mem_of_find?_eq_some hm)

theorem set_plain {o : Obj H} (h : Plain o) (hproto : o.prototype = .objectPrototype) (k : Text)
    (v : Value H) : o.set k v = some (o.define k v) := by
  rw [Obj.set]
  cases hown : own k o.props with
  | none => simp only [hproto, h.extensible, Bool.not_true, Bool.false_eq_true, ↓reduceIte]
  | some p =>
    have hp := own_eq_some h hown
    rw [hp]
    exact if_pos rfl

/-- All members of a plain source are assigned to a plain target. -/
theorem assignFrom_plain (w : World H) {source target : Obj H} (hs : Plain source)
    (ht : Plain target) (hproto : target.prototype = .objectPrototype) :
    assignFrom w source target =
      some (target.defineAll ((w.order source.props).map fun m => (m.1, m.2.value))) := by
  have hmem : ∀ m ∈ w.order source.props, m.2 = data m.2.value :=
    fun m hm => hs.data m ((w.perm _).mem_iff.mp hm)
  rw [assignFrom]
  generalize w.order source.props = ms at hmem
  induction ms generalizing target with
  | nil => rfl
  | cons m ms ih =>
    obtain ⟨hdata, hms⟩ := List.forall_mem_cons.mp hmem
    have henum : m.2.enumerable = true := by rw [hdata]; rfl
    rw [List.foldlM_cons, if_pos henum, set_plain ht hproto]
    exact ih (plain_define ht _ _) hproto hms

/-- The properties of the source win over those of the target. -/
theorem own_assignFrom (w : World H) {source target o : Obj H} (hs : Plain source)
    (ht : Plain target) (hproto : target.prototype = .objectPrototype)
    (h : assignFrom w source target = some o) (k : Text) :
    own k o.props = (own k source.props).or (own k target.props) := by
  rw [assignFrom_plain w hs ht hproto] at h
  cases h
  rw [own_defineAll]
  congr 1
  have hperm : ((w.order source.props).reverse).Perm source.props :=
    (List.reverse_perm _).trans (w.perm _)
  rw [lastOf, ← List.map_reverse, List.find?_map, Option.map_map, own,
    ← find_perm hperm ((hperm.map _).nodup_iff.mpr hs.nodup) k]
  show Option.map _ ((w.order source.props).reverse.find? fun m => m.1 = k) = _
  cases hfind : (w.order source.props).reverse.find? fun m => m.1 = k with
  | none => rfl
  | some m =>
    have hm := hperm.mem_iff.mp (List.mem_of_find?_eq_some hfind)
    exact congrArg some (hs.data m hm).symm

theorem own_frozen (k : Text) (o : Obj H) : own k o.frozen.props =
    (own k o.props).map fun p => { p with writable := false, configurable := false } := by
  rw [own, own, Obj.frozen, List.find?_map, Option.map_map, Option.map_map]
  rfl

/-! ## object literals -/

/-- an expression that makes no object -/
def Leaf (w : World H) (e : Expr) (v : Value H) : Prop := ∀ heap, eval w e heap = some (v, heap)

/-- what an object literal with these members makes -/
def literal (ms : List (Text × Value H)) : Obj H := Obj.empty.defineAll ms

theorem modify_last {o : Obj H} (heap : Heap H) (f : Obj H → Obj H) :
    (heap ++ [o]).modify heap.length f = heap ++ [f o] := by
  induction heap with
  | nil => rfl
  | cons a heap ih => exact congrArg (a :: ·) ih

theorem evalMembers_leaf {α : Type} (w : World H) {xs : List α} {key : α → Text} {e : α → Expr}
    {v : α → Value H} (h : ∀ x ∈ xs, Leaf w (e x) (v x)) (heap : Heap H) (o : Obj H) :
    evalMembers w heap.length (xs.map fun x => (key x, e x)) (heap ++ [o]) =
      some (heap ++ [o.defineAll (xs.map fun x => (key x, v x))]) := by
  induction xs generalizing o with
  | nil => rfl
  | cons x xs ih =>
    obtain ⟨hx, hxs⟩ := List.forall_mem_cons.mp h
    rw [List.map_cons, evalMembers, hx, Option.bind_some, modify_last, ih hxs]
    rfl

theorem eval_literal {α : Type} (w : World H) {xs : List α} {key : α → Text} {e : α → Expr}
    {v : α → Value H} (h : ∀ x ∈ xs, Leaf w (e x) (v x)) (heap : Heap H) :
    eval w (.object (xs.map fun x => (key x, e x))) heap =
      some (.ref heap.length, heap ++ [literal (xs.map fun x => (key x, v x))]) := by
  rw [eval, evalMembers_leaf w h]
  rfl

theorem plain_defineAll (ms : List (Text × Value H)) {o : Obj H} (h : Plain o) :
    Plain (o.defineAll ms) := by
  induction ms generalizing o with
  | nil => exact h
  | cons m ms ih => exact ih (plain_define h m.1 m.2)

theorem plain_literal (ms : List (Text × Value H)) : Plain (literal ms) :=
  plain_defineAll ms plain_empty

theorem own_literal (k : Text) (ms : List (Text × Value H)) :
    own k (literal ms).props = lastOf k ms := by
  rw [literal, own_defineAll]
  exact Option.or_none

theorem prototype_literal (ms : List (Text × Value H)) :
    (literal ms).prototype = .objectPrototype := by
  have hall : ∀ o : Obj H, (o.defineAll ms).prototype = o.prototype := by
    induction ms with
    | nil => exact fun _ => rfl
    | cons m ms ih => exact fun o => ih (o.define m.1 m.2)
  exact hall .empty

/-! ## the functions of `Object` on fresh objects -/

theorem get_fresh (heap rest : Heap H) (o : Obj H) : (heap ++ o :: rest)[heap.length]? = some o := by
  rw [List.getElem?_append_right (Nat.le_refl _), Nat.sub_self]
  rfl

theorem set_fresh (heap rest : Heap H) (o o' : Obj H) :
    (heap ++ o :: rest).set heap.length o' = heap ++ o' :: rest := by
  rw [List.set_append_right _ _ (Nat.le_refl _), Nat.sub_self]
  rfl

theorem objectAssign_fresh {w : World H} {source target o : Obj H}
    (h : assignFrom w source target = some o) (heap : Heap H) :
    objectAssign w [.ref heap.length, .ref (heap.length + 1)] (heap ++ [target, source]) =
      some (.ref heap.length, heap ++ [o, source]) := by
  have hsource : (heap ++ [target, source])[heap.length + 1]? = some source := by
    have hget := get_fresh (heap ++ [target]) [] source
    rwa [List.length_append, List.append_assoc] at hget
  have hone : assignSource w heap.length (heap ++ [target, source]) (.ref (heap.length + 1)) =
      some (heap ++ [o, source]) := by
    rw [assignSource, hsource, Option.bind_some, get_fresh, Option.bind_some, h, Option.map_some,
      set_fresh]
  rw [objectAssign, List.foldlM_cons, hone]
  rfl

theorem objectFreeze_fresh (heap rest : Heap H) (o : Obj H) :
    objectFreeze [.ref heap.length] (heap ++ o :: rest) =
      some (.ref heap.length, heap ++ o.frozen :: rest) := by
  rw [objectFreeze, get_fresh, Option.map_some, set_fresh]

theorem objectDefineProperty_new {heap : Heap H} {address descriptor : Nat} {d o : Obj H}
    {p : Property H} {k : Text} (hd : heap[descriptor]? = some d) (hp : toDescriptor d = some p)
    (ho : heap[address]? = some o) (hk : own k o.props = none) (hext : o.extensible = true) :
    objectDefineProperty [.ref address, .str k, .ref descriptor] heap =
      some (.ref address, heap.set address { o with props := o.props ++ [(k, p)] }) := by
  rw [objectDefineProperty, hd, Option.bind_some, hp, Option.bind_some, ho, Option.bind_some, hk, hext]
  rfl

/-- a property that was not there -/
theorem own_concat {k : Text} {p : Property H} {props : List (Text × Property H)}
    (h : own k props = none) (k' : Text) :
    own k' (props ++ [(k, p)]) = if k' = k then some p else own k' props := by
  rw [own, Option.map_eq_none_iff] at h
  rw [own, List.find?_append, own]
  by_cases hk : k' = k
  · rw [if_pos hk, hk, h, List.find?_cons_of_pos (by simp)]
    rfl
  · rw [if_neg hk, List.find?_cons_of_neg (by simpa using Ne.symm hk), List.find?_nil, Option.or_none]

end

end Lib.EcmaScript
