import NovaRuntime.Lib.EcmaObjects
import NovaRuntime.Script.TaskData

/-!
# The `env` of a script (`bindings.rs`)

`env_source` writes a script that defines `env`, and the worker runs it before the script that it
was given.

* `envSource`   the script;
* `EnvShown`   it is one statement that gives the global object a frozen `env`, which has the
              variables and the bindings and nothing else;
* `envExpr`, `reads_envSource`   the statement that it is;
* `run_envExpr`   what the statement makes;
* `envShown_iff`   `env` is shown unless two bindings are named `__proto__`.
-/

namespace NovaRuntime
open Lib EcmaScript

inductive BindingType where
  | assets
  | database
  | invoke
  | other
  deriving DecidableEq

structure BindingInfo where
  name : Text
  bindingType : BindingType
  scalars : Scalars name

/-- a `HashMap<String, String>`, in the order in which it is gone through -/
structure EnvMap where
  entries : List (Text × Text)
  nodup : (entries.map Prod.fst).Nodup
  scalars : ∀ m ∈ entries, Scalars m.1 ∧ Scalars m.2

/-- the variables of a script, which may have none -/
def envVariables (env : Option EnvMap) : List (Text × Text) := (env.map EnvMap.entries).getD []

/-- the function of the glue that makes a binding object; `invoke` is the cargo feature -/
def bindingFunction (invoke : Bool) : BindingType → Text
  | .assets => txt "__ow_assets_binding"
  | .database => txt "__ow_database_binding"
  | .invoke => if invoke then txt "__ow_invoke_binding" else txt "__ow_absent_binding"
  | .other => txt "__ow_absent_binding"

/-- `join(",")` -/
def joinComma : List Text → Text
  | [] => []
  | [s] => s
  | s :: t :: ts => s ++ 44 :: joinComma (t :: ts)

def bindingMember (invoke : Bool) (binding : BindingInfo) : Text :=
  Json.quote binding.name ++ (txt ": " ++ (bindingFunction invoke binding.bindingType ++
    (txt "(" ++ (Json.quote binding.name ++ txt ")"))))

def variablesText (env : Option EnvMap) : Text :=
  match env with
  | some map => Json.print (.obj (map.entries.map fun m => (m.1, .str m.2)))
  | none => txt "\x7b\x7d"

def objectsText (invoke : Bool) (bindings : List BindingInfo) : Text :=
  if bindings = [] then []
  else txt ", \x7b" ++ (joinComma (bindings.map (bindingMember invoke)) ++ txt "\x7d")

/-- `env_source` -/
def envSource (invoke : Bool) (env : Option EnvMap) (bindings : List BindingInfo) : Text :=
  txt "Object.defineProperty(globalThis, 'env', \x7b value: Object.freeze(Object.assign(" ++
    (variablesText env ++ (objectsText invoke bindings ++
      txt ")), writable: false, enumerable: true, configurable: false \x7d);"))

/-! ## what the script is to do -/

/-- what a function of the glue makes of a name, in code units -/
structure BindingObject where
  function : Text
  name : Text
  deriving DecidableEq

/-- the functions of the glue that make binding objects -/
def bindingFunctions : List Text :=
  [txt "__ow_assets_binding", txt "__ow_database_binding", txt "__ow_invoke_binding",
    txt "__ow_absent_binding"]

/-- the engine, with the glue loaded -/
def glueWorld : World BindingObject where
  host function args :=
    match args with
    | [.str name] => if bindingFunctions.contains function then some ⟨function, name⟩ else none
    | _ => none
  order := ownOrder
  perm := perm_ownOrder

/-- the global object before the script: it has no `env` -/
structure FreshGlobal where
  obj : Obj BindingObject
  extensible : obj.extensible = true
  noEnv : own (txt "env") obj.props = none

/-- The value of a property of `env`: a binding before a variable, a later binding before an earlier
one. -/
def envValue (invoke : Bool) (env : Option EnvMap) (bindings : List BindingInfo) (k : Text) :
    Option (Value BindingObject) :=
  match bindings.reverse.find? fun b => encode b.name = k with
  | some b => some (.host ⟨bindingFunction invoke b.bindingType, encode b.name⟩)
  | none => ((envVariables env).find? fun m => encode m.1 = k).map fun m => .str (encode m.2)

/-- the expressions of the object literals of the script -/
def variablesExpr (env : Option EnvMap) : Expr :=
  .object ((envVariables env).map fun m => (encode m.1, .str (encode m.2)))

def objectsExpr (invoke : Bool) (bindings : List BindingInfo) : Expr :=
  .object (bindings.map fun b => (encode b.name,
    .call (bindingFunction invoke b.bindingType) [] [.str (encode b.name)]))

def assignArgs (invoke : Bool) (env : Option EnvMap) (bindings : List BindingInfo) : List Expr :=
  if bindings = [] then [variablesExpr env] else [variablesExpr env, objectsExpr invoke bindings]

/-- the descriptor of the property `env` -/
def descriptorExpr (invoke : Bool) (env : Option EnvMap) (bindings : List BindingInfo) : Expr :=
  .object
    [(txt "value", .call (txt "Object") [txt "freeze"]
      [.call (txt "Object") [txt "assign"] (assignArgs invoke env bindings)]),
    (txt "writable", .bool false), (txt "enumerable", .bool true), (txt "configurable", .bool false)]

/-- the statement that the script is to be -/
def envExpr (invoke : Bool) (env : Option EnvMap) (bindings : List BindingInfo) : Expr :=
  .call (txt "Object") [txt "defineProperty"]
    [.ref (txt "globalThis") [], .str (txt "env"), descriptorExpr invoke env bindings]

/-- The script is this statement, and it gives the global object an `env` that cannot be replaced:
an object with these properties and no others, to which nothing can be added. -/
def EnvShown (invoke : Bool) (env : Option EnvMap) (bindings : List BindingInfo) : Prop :=
  expressionScript (envSource invoke env bindings) = some [envExpr invoke env bindings] ∧
    ∀ g : FreshGlobal, ∃ heap address global o,
      runScript glueWorld [envExpr invoke env bindings] [g.obj] = some heap ∧
        heap[0]? = some global ∧ heap[address]? = some o ∧
        (∀ k, own k global.props = if k = txt "env" then some ⟨.ref address, false, true, false⟩
          else own k g.obj.props) ∧
        o.extensible = false ∧
        ∀ k, own k o.props = (envValue invoke env bindings k).map fun v => ⟨v, false, true, false⟩

/-! ## reading the script -/

theorem reads_members (m : Text × Text) (ms : List (Text × Text)) :
    ReadsMembers (Json.quote m.1 ++ 58 :: (Json.quote m.2 ++
      Json.printMembers (ms.map fun m => (m.1, .str m.2))))
      ((m :: ms).map fun m => (encode m.1, Expr.str (encode m.2))) := by
  induction ms generalizing m with
  | nil => exact readsMembers_one (readsKey_quote m.1) (reads_quote m.2) (w := []) (by simp)
  | cons m' ms ih => exact readsMembers_cons (readsKey_quote m.1) (reads_quote m.2) (ih m')

theorem reads_variables (env : Option EnvMap) : Reads (variablesText env) (variablesExpr env) := by
  cases env with
  | none => exact reads_empty
  | some map =>
    show Reads (Json.print (.obj (map.entries.map fun m => (m.1, .str m.2))))
      (.object (map.entries.map fun m => (encode m.1, .str (encode m.2))))
    cases map.entries with
    | nil => exact reads_empty
    | cons m ms => exact reads_object (reads_members m ms)

theorem isPath_bindingFunction (invoke : Bool) (type : BindingType) :
    IsPath (bindingFunction invoke type) [] := by
  have hname : ∀ s ∈ bindingFunctions, EcmaScript.IsName s ∧ s ∉ reserved := by
    intro s hs
    have hall : ∀ s ∈ bindingFunctions, s.head? = some 95 ∧ (∀ c ∈ s.tail, isNamePart c = true) ∧
        s ∉ reserved := by decide
    obtain ⟨hhead, htail, hfree⟩ := hall s hs
    refine ⟨⟨95, s.tail, ?_, by decide, htail⟩, hfree⟩
    cases s with
    | nil => cases hhead
    | cons c s => rw [Option.some.inj hhead]; rfl
  have hmem : bindingFunction invoke type ∈ bindingFunctions := by
    cases type <;> cases invoke <;> decide
  exact ⟨(hname _ hmem).1, (hname _ hmem).2, by simp⟩

theorem reads_binding (invoke : Bool) (b : BindingInfo) :
    ∃ value, bindingMember invoke b = Json.quote b.name ++ 58 :: value ∧
      Reads value (.call (bindingFunction invoke b.bindingType) [] [.str (encode b.name)]) := by
  refine ⟨32 :: (bindingFunction invoke b.bindingType ++
    (pathText [] ++ 40 :: (Json.quote b.name ++ [41]))), rfl, ?_⟩
  exact reads_ws (by decide)
    (reads_call (isPath_bindingFunction invoke _) (readsArgs_one (reads_quote b.name)))

theorem reads_bindings (invoke : Bool) (b : BindingInfo) (bs : List BindingInfo) :
    ReadsMembers (joinComma ((b :: bs).map (bindingMember invoke)) ++ [125])
      ((b :: bs).map fun b => (encode b.name,
        Expr.call (bindingFunction invoke b.bindingType) [] [.str (encode b.name)])) := by
  induction bs generalizing b with
  | nil =>
    obtain ⟨value, htext, hvalue⟩ := reads_binding invoke b
    have hone := readsMembers_one (readsKey_quote b.name) hvalue (w := []) (by simp)
    show ReadsMembers (bindingMember invoke b ++ [125]) _
    rw [htext, List.append_assoc, List.cons_append]
    exact hone
  | cons b' bs ih =>
    obtain ⟨value, htext, hvalue⟩ := reads_binding invoke b
    have hcons := readsMembers_cons (readsKey_quote b.name) hvalue (ih b')
    show ReadsMembers (bindingMember invoke b ++ 44 :: joinComma _ ++ [125]) _
    rw [htext]
    simpa [List.append_assoc] using hcons

theorem reads_assignArgs (invoke : Bool) (env : Option EnvMap) (bindings : List BindingInfo) :
    ReadsArgs (variablesText env ++ (objectsText invoke bindings ++ [41]))
      (assignArgs invoke env bindings) := by
  cases bindings with
  | nil => exact readsArgs_one (reads_variables env)
  | cons b bs =>
    have hobjects : Reads (32 :: 123 :: (joinComma ((b :: bs).map (bindingMember invoke)) ++ [125]))
        (objectsExpr invoke (b :: bs)) :=
      reads_ws (by decide) (reads_object (reads_bindings invoke b bs))
    have hcons := readsArgs_cons (reads_variables env) (readsArgs_one hobjects)
    exact hcons

theorem isPath_object {s : Text} (hs : EcmaScript.IsName s) : IsPath (txt "Object") [s] where
  isName := ⟨79, txt "bject", by decide⟩
  free := by decide
  isNames := by simpa using hs

theorem readsKey_space {s : Text} (hs : EcmaScript.IsName s) : ReadsKey (32 :: s) s :=
  readsKey_ws (by decide) (readsKey_name hs)

theorem reads_flag (b : Bool) : Reads (32 :: if b then txt "true" else txt "false") (.bool b) :=
  reads_ws (by decide) (reads_bool b)

theorem reads_descriptor {s : Text} {e : Expr} (h : Reads s e) :
    Reads (txt "\x7b value: " ++ (s ++
      txt ", writable: false, enumerable: true, configurable: false \x7d"))
      (.object [(txt "value", e), (txt "writable", .bool false), (txt "enumerable", .bool true),
        (txt "configurable", .bool false)]) := by
  have hconfigurable := readsMembers_one
    (readsKey_space (s := txt "configurable") ⟨99, txt "onfigurable", by decide⟩)
    (reads_flag false) (w := [32]) (by decide)
  have henumerable := readsMembers_cons
    (readsKey_space (s := txt "enumerable") ⟨101, txt "numerable", by decide⟩)
    (reads_flag true) hconfigurable
  have hwritable := readsMembers_cons
    (readsKey_space (s := txt "writable") ⟨119, txt "ritable", by decide⟩)
    (reads_flag false) henumerable
  exact reads_object (readsMembers_cons
    (readsKey_space (s := txt "value") ⟨118, txt "alue", by decide⟩)
    (reads_ws (c := 32) (by decide) h) hwritable)

/-- The script is the statement, whatever the names and the values are. -/
theorem envSource_eq (invoke : Bool) (env : Option EnvMap) (bindings : List BindingInfo) :
    ∃ s, envSource invoke env bindings = s ++ [59] ∧ Reads s (envExpr invoke env bindings) ∧
      ∃ c t, s = c :: t ∧ isNameStart c = true := by
  have hassign := reads_call (isPath_object (s := txt "assign") ⟨97, txt "ssign", by decide⟩)
    (reads_assignArgs invoke env bindings)
  have hfreeze := reads_call (isPath_object (s := txt "freeze") ⟨102, txt "reeze", by decide⟩)
    (readsArgs_one hassign)
  have hdescriptor := reads_ws (c := 32) (by decide) (reads_descriptor hfreeze)
  have hname : Reads (32 :: 39 :: (txt "env" ++ [39])) (.str (txt "env")) :=
    reads_ws (by decide) (reads_single (by decide))
  have hglobal : Reads (txt "globalThis" ++ pathText []) (.ref (txt "globalThis") []) :=
    reads_ref ⟨⟨103, txt "lobalThis", by decide⟩, by decide, by simp⟩
  have hcall := reads_call
    (isPath_object (s := txt "defineProperty") ⟨100, txt "efineProperty", by decide⟩)
    (readsArgs_cons hglobal (readsArgs_cons hname (readsArgs_one hdescriptor)))
  refine ⟨_, ?_, hcall, 79, _, rfl, by decide⟩
  simp [envSource, txt, pathText]

/-! ## running the script -/

def variableMembers (env : Option EnvMap) : List (Text × Value BindingObject) :=
  (envVariables env).map fun m => (encode m.1, .str (encode m.2))

def bindingMembers (invoke : Bool) (bindings : List BindingInfo) :
    List (Text × Value BindingObject) :=
  bindings.map fun b => (encode b.name, .host ⟨bindingFunction invoke b.bindingType, encode b.name⟩)

theorem eval_variables (env : Option EnvMap) (heap : Heap BindingObject) :
    eval glueWorld (variablesExpr env) heap =
      some (.ref heap.length, heap ++ [literal (variableMembers env)]) :=
  eval_literal glueWorld (fun _ _ _ => rfl) heap

theorem leaf_binding (invoke : Bool) (b : BindingInfo) :
    Leaf glueWorld (.call (bindingFunction invoke b.bindingType) [] [.str (encode b.name)])
      (.host ⟨bindingFunction invoke b.bindingType, encode b.name⟩) := by
  have hmem : bindingFunctions.contains (bindingFunction invoke b.bindingType) = true := by
    cases b.bindingType <;> cases invoke <;> decide
  intro heap
  have hhost : glueWorld.host (bindingFunction invoke b.bindingType) [.str (encode b.name)] =
      some ⟨bindingFunction invoke b.bindingType, encode b.name⟩ := if_pos hmem
  show (evalCall glueWorld _ [] _ _) = _
  rw [evalCall, if_pos rfl, hhost]
  rfl

theorem eval_bindings (invoke : Bool) (bindings : List BindingInfo) (heap : Heap BindingObject) :
    eval glueWorld (objectsExpr invoke bindings) heap =
      some (.ref heap.length, heap ++ [literal (bindingMembers invoke bindings)]) :=
  eval_literal glueWorld (fun b _ => leaf_binding invoke b) heap

/-- the object before it is frozen -/
def assigned (invoke : Bool) (env : Option EnvMap) (bindings : List BindingInfo) :
    Option (Obj BindingObject) :=
  if bindings = [] then some (literal (variableMembers env))
  else assignFrom glueWorld (literal (bindingMembers invoke bindings)) (literal (variableMembers env))

theorem eval_assign (invoke : Bool) (env : Option EnvMap) (bindings : List BindingInfo)
    (heap : Heap BindingObject) {o : Obj BindingObject} (ho : assigned invoke env bindings = some o) :
    ∃ rest, eval glueWorld (.call (txt "Object") [txt "assign"] (assignArgs invoke env bindings))
      heap = some (.ref heap.length, heap ++ o :: rest) := by
  rw [eval, assignArgs]
  rw [assigned] at ho
  split at ho
  · next hnil =>
    cases ho
    refine ⟨[], ?_⟩
    rw [if_pos hnil, evalArgs, eval_variables]
    rfl
  · next hne =>
    refine ⟨[literal (bindingMembers invoke bindings)], ?_⟩
    rw [if_neg hne, evalArgs, eval_variables, Option.bind_some, evalArgs, eval_bindings,
      List.append_assoc, List.length_append]
    exact objectAssign_fresh ho heap

/-- the object that describes the property `env` -/
def envDescriptor (address : Nat) : Obj BindingObject :=
  literal [(txt "value", .ref address), (txt "writable", .bool false), (txt "enumerable", .bool true),
    (txt "configurable", .bool false)]

/-- What the statement makes: the property of the global object and the frozen object. -/
theorem run_envExpr (invoke : Bool) (env : Option EnvMap) (bindings : List BindingInfo)
    (g : FreshGlobal) {o : Obj BindingObject} (ho : assigned invoke env bindings = some o) :
    ∃ rest, runScript glueWorld [envExpr invoke env bindings] [g.obj] =
      some ({ g.obj with props := g.obj.props ++ [(txt "env", ⟨.ref 2, false, true, false⟩)] } ::
        envDescriptor 2 :: o.frozen :: rest) := by
  obtain ⟨rest, hassign⟩ := eval_assign invoke env bindings [g.obj, .empty] ho
  have hfreeze : eval glueWorld (.call (txt "Object") [txt "freeze"]
      [.call (txt "Object") [txt "assign"] (assignArgs invoke env bindings)]) [g.obj, .empty] =
      some (.ref 2, g.obj :: .empty :: o.frozen :: rest) := by
    rw [eval, evalArgs, hassign]
    exact objectFreeze_fresh [g.obj, .empty] rest o
  refine ⟨rest, ?_⟩
  have hdefine : objectDefineProperty [.ref 0, .str (txt "env"), .ref 1]
      (g.obj :: envDescriptor 2 :: o.frozen :: rest) = some (.ref 0,
        { g.obj with props := g.obj.props ++ [(txt "env", ⟨.ref 2, false, true, false⟩)] } ::
          envDescriptor 2 :: o.frozen :: rest) :=
    objectDefineProperty_new (d := envDescriptor 2) rfl rfl rfl g.noEnv g.extensible
  have hdescriptor : eval glueWorld (descriptorExpr invoke env bindings) [g.obj] =
      some (.ref 1, g.obj :: envDescriptor 2 :: o.frozen :: rest) := by
    rw [descriptorExpr, eval, List.singleton_append, evalMembers, hfreeze]
    rfl
  have heval : eval glueWorld (envExpr invoke env bindings) [g.obj] = some (.ref 0,
      { g.obj with props := g.obj.props ++ [(txt "env", ⟨.ref 2, false, true, false⟩)] } ::
        envDescriptor 2 :: o.frozen :: rest) := by
    have hargs : evalArgs glueWorld [.ref (txt "globalThis") [], .str (txt "env"),
        descriptorExpr invoke env bindings] [g.obj] =
        some ([.ref 0, .str (txt "env"), .ref 1], g.obj :: envDescriptor 2 :: o.frozen :: rest) := by
      show ((evalArgs glueWorld [.str (txt "env"), _] [g.obj]).map _) = _
      rw [evalArgs, eval, Option.bind_some, evalArgs, hdescriptor]
      rfl
    rw [envExpr, eval, hargs]
    exact hdefine
  rw [runScript, List.foldlM_cons, heval]
  rfl

/-! ## what is in `env` -/

theorem nodup_variables (env : Option EnvMap) :
    ((envVariables env).map fun m => encode m.1).Nodup := by
  cases env with
  | none => exact List.nodup_nil
  | some map =>
    show (map.entries.map fun m => encode m.1).Nodup
    refine List.Nodup.map_on (fun m hm m' hm' heq => ?_) (List.Nodup.of_map _ map.nodup)
    have hkey := (encode_injective (map.scalars m hm).1 (map.scalars m' hm').1).mp heq
    exact List.inj_on_of_nodup_map map.nodup hm hm' hkey

theorem lastOf_variables (env : Option EnvMap) (k : Text) : lastOf k (variableMembers env) =
    ((envVariables env).find? fun m => encode m.1 = k).map fun m => data (.str (encode m.2)) := by
  rw [lastOf, variableMembers, ← List.map_reverse, List.find?_map, Option.map_map]
  show Option.map _ ((envVariables env).reverse.find? fun m => encode m.1 = k) = _
  rw [← find_perm (List.reverse_perm _).symm (nodup_variables env) k]
  rfl

theorem lastOf_bindings (invoke : Bool) (bindings : List BindingInfo) (k : Text) :
    lastOf k (bindingMembers invoke bindings) =
      (bindings.reverse.find? fun b => encode b.name = k).map fun b =>
        data (.host ⟨bindingFunction invoke b.bindingType, encode b.name⟩) := by
  rw [lastOf, bindingMembers, ← List.map_reverse, List.find?_map, Option.map_map]
  rfl

theorem exists_assigned (invoke : Bool) (env : Option EnvMap) (bindings : List BindingInfo) :
    ∃ o, assigned invoke env bindings = some o := by
  rw [assigned]
  split
  · exact ⟨_, rfl⟩
  · exact ⟨_, assignFrom_plain glueWorld (plain_literal _) (plain_literal _) (prototype_literal _)⟩

theorem own_assigned {invoke : Bool} {env : Option EnvMap} {bindings : List BindingInfo}
    {o : Obj BindingObject} (ho : assigned invoke env bindings = some o) (k : Text) :
    own k o.props = (envValue invoke env bindings k).map data := by
  rw [assigned] at ho
  rw [envValue]
  split at ho
  · next hnil =>
    cases ho
    rw [own_literal, lastOf_variables, hnil, List.reverse_nil, List.find?_nil, Option.map_map]
    rfl
  · rw [own_assignFrom glueWorld (plain_literal _) (plain_literal _) (prototype_literal _) ho,
      own_literal, own_literal, lastOf_variables, lastOf_bindings]
    cases bindings.reverse.find? fun b => encode b.name = k with
    | none =>
      rw [Option.map_none, Option.none_or, Option.map_map]
      rfl
    | some b => rfl

/-! ## the early error -/

/-- The keys of a map are distinct, so none of them is there twice. -/
theorem protoTwice_variables (env : Option EnvMap) : protoTwice (variablesExpr env) = false := by
  rw [variablesExpr, protoTwice_object, decide_eq_false_iff_not, Nat.not_lt, List.countP_map]
  · have hcount := List.nodup_iff_count_le_one.mp (nodup_variables env) (txt "__proto__")
    rw [List.count, List.countP_map] at hcount
    refine (List.countP_congr fun m _ => ?_).trans_le hcount
    simp
  · intro m hm
    obtain ⟨m, -, rfl⟩ := List.mem_map.mp hm
    rfl

theorem protoTwice_objects (invoke : Bool) (bindings : List BindingInfo) :
    protoTwice (objectsExpr invoke bindings) =
      decide (1 < bindings.countP fun b => b.name = txt "__proto__") := by
  rw [objectsExpr, protoTwice_object, List.countP_map]
  · congr 2
    refine List.countP_congr fun b _ => ?_
    have hproto : encode b.name = txt "__proto__" ↔ b.name = txt "__proto__" :=
      encode_injective (t := txt "__proto__") b.scalars (by decide)
    simpa using hproto
  · intro m hm
    obtain ⟨b, -, rfl⟩ := List.mem_map.mp hm
    rfl

/-- The script is refused exactly if two bindings are named `__proto__`. -/
theorem protoTwice_envExpr (invoke : Bool) (env : Option EnvMap) (bindings : List BindingInfo) :
    protoTwice (envExpr invoke env bindings) =
      decide (1 < bindings.countP fun b => b.name = txt "__proto__") := by
  have hargs : protoTwiceArgs (assignArgs invoke env bindings) =
      decide (1 < bindings.countP fun b => b.name = txt "__proto__") := by
    rw [assignArgs]
    split
    · next hnil =>
      rw [protoTwiceArgs, protoTwice_variables, hnil]
      rfl
    · rw [protoTwiceArgs, protoTwiceArgs, protoTwice_variables, protoTwice_objects, protoTwiceArgs,
        Bool.false_or, Bool.or_false]
  have hdescriptor : protoTwice (descriptorExpr invoke env bindings) =
      protoTwiceArgs (assignArgs invoke env bindings) := by
    show (decide (1 < 0) || protoTwiceMembers _) = _
    simp [protoTwiceMembers, protoTwice, protoTwiceArgs]
  rw [envExpr, protoTwice, protoTwiceArgs, protoTwiceArgs, protoTwiceArgs, hdescriptor, hargs]
  simp [protoTwice, protoTwiceArgs]

/-- The script is the statement, or no script at all. -/
theorem expressionScript_envSource (invoke : Bool) (env : Option EnvMap)
    (bindings : List BindingInfo) : expressionScript (envSource invoke env bindings) =
      if 1 < bindings.countP fun b => b.name = txt "__proto__" then none
      else some [envExpr invoke env bindings] := by
  obtain ⟨s, hs, hreads, hstart⟩ := envSource_eq invoke env bindings
  rw [hs, expressionScript_one hreads hstart, protoTwice_envExpr]
  simp only [decide_eq_true_eq]

/-- The variables and the bindings of a script are its `env`, unless two bindings are named
`__proto__`. -/
theorem envShown_iff (invoke : Bool) (env : Option EnvMap) (bindings : List BindingInfo) :
    EnvShown invoke env bindings ↔ bindings.countP (fun b => b.name = txt "__proto__") ≤ 1 := by
  rw [← Nat.not_lt]
  constructor
  · rintro ⟨hscript, -⟩ htwice
    rw [expressionScript_envSource, if_pos htwice] at hscript
    cases hscript
  · intro honce
    refine ⟨by rw [expressionScript_envSource, if_neg honce], fun g => ?_⟩
    obtain ⟨made, hmade⟩ := exists_assigned invoke env bindings
    obtain ⟨rest, hrun⟩ := run_envExpr invoke env bindings g hmade
    refine ⟨_, 2, _, made.frozen, hrun, rfl, rfl, own_concat g.noEnv, rfl, fun k => ?_⟩
    rw [own_frozen, own_assigned hmade, Option.map_map]
    rfl

/-- a binding `__proto__` -/
def protoBinding (type : BindingType) : BindingInfo where
  name := txt "__proto__"
  bindingType := type
  scalars := by decide

/-- Two bindings of one name, the second of which would win under any other name. -/
theorem a_later_binding_does_not_win : ¬ ∀ invoke env bindings, EnvShown invoke env bindings := by
  intro h
  have hshown := (h false none [protoBinding .assets, protoBinding .database]).1
  rw [expressionScript_envSource, if_pos (by decide)] at hshown
  cases hshown

end NovaRuntime
