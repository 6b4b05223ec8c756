import NovaRuntime.Host.Number

/-!
# JavaScript values as the glue meets them

The glue takes whatever a handler gives it.  A `JsVal` says what the value is and, for an object,
what each thing the glue may do with it leads to: guest code may run in any of them, and may throw.
An object that is met twice may answer differently the second time, so that each place where one is
met has a value of its own.

* `JsString`   UTF-16 code units;
* `Op`         what the glue does with an object;
* `JsVal`      a value; `throws op` says whether `op` throws, `result op` what it gives or throws;
* `toText`, `toNumber`, `truthy`, `instanceofError`   the conversions;
* `plainObject`, `plainArray`   what an object literal and an array literal make.

An object whose members lead back to itself has no end as a tree.  Serialising it ends where the
engine finds the cycle or runs out of stack, and there `Op.enter` throws.
-/

namespace NovaRuntime
open Lib

structure JsString where
  units : Text
  small : ∀ c ∈ units, c < 0x10000
  deriving DecidableEq

/-- a literal of the glue's source -/
def JsString.lit (s : String) : JsString where
  units := encode (txt s)
  small := encode_small (scalars_txt s)

def JsString.append (s t : JsString) : JsString where
  units := s.units ++ t.units
  small c hc := (List.mem_append.mp hc).elim (s.small c) (t.small c)

/-- a text of the host as a JavaScript string -/
def JsString.ofText (t : Text) (h : Scalars t) : JsString where
  units := encode t
  small := encode_small h

/-- what the glue does with an object -/
inductive Op where
  /-- `'success' in value` -/
  | hasSuccess
  | get (key : Text)
  /-- a second read of one member -/
  | getAgain (key : Text)
  /-- `await value.key()` -/
  | call (key : Text)
  /-- `value instanceof Error` -/
  | instanceofError
  /-- `String(value)` -/
  | toText
  /-- `Number(value)` -/
  | toNumber
  /-- reading `toJSON`, and calling it if it can be called -/
  | toJSON
  /-- `Array.isArray(value)` -/
  | isArray
  /-- `Object.keys(value)` -/
  | keys
  /-- beginning to serialise it -/
  | enter
  | length
  | item (i : Nat)
  deriving DecidableEq

/-- what a wrapper object, such as `new Number(1)`, holds -/
inductive Boxed where
  | number
  | string
  | boolean (b : Bool)
  | bigint
  deriving DecidableEq

/-- what is the case with an object, as far as the glue asks -/
structure Shape where
  callable : Bool
  isArray : Bool
  isError : Bool
  hasSuccess : Bool
  /-- whether `toJSON` can be called -/
  toJSON : Bool
  keys : List JsString
  length : Nat
  text : JsString
  number : F64
  /-- the value that this object wraps; `text` and `number` are what it converts to -/
  boxed : Option Boxed := none

inductive JsVal where
  | undefined
  | null
  | bool (b : Bool)
  | num (x : F64)
  | str (s : JsString)
  | symbol (description : JsString)
  /-- with what its `toJSON` does, if guest code gave BigInt one -/
  | bigint (value : Int) (toJSON throws : Bool) (result : JsVal)
  | object (shape : Shape) (throws : Op → Bool) (result : Op → JsVal)

/-- JavaScript code that may throw -/
abbrev Js (α : Type) := Except JsVal α

/-! ## numbers and text -/

/-- `NumLit` as JavaScript text -/
def numberText : F64 → JsString
  | .nan => .lit "NaN"
  | .inf false => .lit "Infinity"
  | .inf true => .lit "-Infinity"
  | .fin q => ⟨Json.numText (numberToString q), fun c hc =>
      lt_trans (Json.numText_ascii _ c hc) (by norm_num)⟩

def isJsSpace (c : Nat) : Bool :=
  (9 ≤ c && c ≤ 13) || c = 32 || c = 160 || c = 0x1680 || (0x2000 ≤ c && c ≤ 0x200A) ||
    c = 0x2028 || c = 0x2029 || c = 0x202F || c = 0x205F || c = 0x3000 || c = 0xFEFF

/-- the value of digits of a base that a letter names -/
def radixNumber (base : Nat) (s : Text) : Option Nat :=
  if s = [] then none
  else s.foldlM (fun n c => (Json.hexVal c).bind fun d =>
    if d < base then some (base * n + d) else none) 0

def decimalExp : Text → Option Int
  | [] => some 0
  | c :: r =>
    if c = 101 ∨ c = 69 then
      match Json.takeDigits (Json.expSign r).2 with
      | ([], _) | (_, _ :: _) => none
      | (ds, []) =>
        let x : Int := Json.natOf ds
        some (if (Json.expSign r).1 = some true then -x else x)
    else none

/-- a decimal literal without its sign -/
def decimalNumber (s : Text) : Option ℚ :=
  let (int, r) := Json.takeDigits s
  let (frac, r) := match r with
    | 46 :: r => Json.takeDigits r
    | r => ([], r)
  if int = [] ∧ frac = [] then none
  else (decimalExp r).map fun e =>
    (Json.natOf (int ++ frac) : ℚ) * (10 : ℚ) ^ (e - (frac.length : Int))

def stringToNumber (s : Text) : F64 :=
  let t := ((s.dropWhile isJsSpace).reverse.dropWhile isJsSpace).reverse
  match t with
  | [] => .fin 0
  | 48 :: c :: r =>
    if c = 120 ∨ c = 88 then radix (radixNumber 16 r)
    else if c = 111 ∨ c = 79 then radix (radixNumber 8 r)
    else if c = 98 ∨ c = 66 then radix (radixNumber 2 r)
    else decimal false (48 :: c :: r)
  | 43 :: r => decimal false r
  | 45 :: r => decimal true r
  | r => decimal false r
where
  radix : Option Nat → F64
    | some n => roundF64 n
    | none => .nan
  decimal (neg : Bool) (r : Text) : F64 :=
    if r = txt "Infinity" then .inf neg
    else match decimalNumber r with
      | some q => roundF64 (if neg then -q else q)
      | none => .nan

namespace JsVal

/-- an error that the engine or the glue throws; its stack is known by its first line -/
def error (name message : JsString) : JsVal :=
  .object
    { callable := false, isArray := false, isError := true, hasSuccess := false, toJSON := false
      keys := [], length := 0, number := .nan
      text := (name.append (.lit ": ")).append message }
    (fun _ => false)
    fun
      | .get key | .getAgain key =>
        if key = txt "message" then .str message
        else if key = txt "stack" then .str ((name.append (.lit ": ")).append message)
        else .undefined
      | _ => .undefined

def typeError (message : JsString) : JsVal := error (.lit "TypeError") message

def truthy : JsVal → Bool
  | .undefined | .null => false
  | .bool b => b
  | .num x => decide (x ≠ .nan ∧ x ≠ .fin 0)
  | .str s => decide (s.units ≠ [])
  | .bigint n _ _ _ => decide (n ≠ 0)
  | .symbol _ | .object _ _ _ => true

def isCallable : JsVal → Bool
  | .object shape _ _ => shape.callable
  | _ => false

def isFalse : JsVal → Bool
  | .bool b => !b
  | _ => false

/-- what doing `op` with an object gives -/
def ask (throws : Op → Bool) (result : Op → JsVal) (op : Op) : Js JsVal :=
  if throws op then .error (result op) else .ok (result op)

/-- the read of a member; nothing is in the prototypes of the primitive values -/
def get (key : Text) : JsVal → Js JsVal
  | .undefined | .null => .error (typeError (.lit "cannot read a property of this value"))
  | .object _ throws result => ask throws result (.get key)
  | _ => .ok .undefined

def getAgain (key : Text) : JsVal → Js JsVal
  | .object _ throws result => ask throws result (.getAgain key)
  | v => v.get key

/-- `await value.key()`, where `value.key` was a function -/
def call (key : Text) : JsVal → Js JsVal
  | .object _ throws result => ask throws result (.call key)
  | _ => .error (typeError (.lit "this value is not a function"))

def instanceofError : JsVal → Js Bool
  | .object shape throws result =>
    if throws .instanceofError then .error (result .instanceofError) else .ok shape.isError
  | _ => .ok false

/-- `String(value)` -/
def toText : JsVal → Js JsString
  | .undefined => .ok (.lit "undefined")
  | .null => .ok (.lit "null")
  | .bool b => .ok (if b then .lit "true" else .lit "false")
  | .num x => .ok (numberText x)
  | .str s => .ok s
  | .symbol description => .ok (((JsString.lit "Symbol(").append description).append (.lit ")"))
  | .bigint n _ _ _ => .ok ⟨Json.numText (NumLit.ofInt n), fun c hc =>
      lt_trans (Json.numText_ascii _ c hc) (by norm_num)⟩
  | .object shape throws result =>
    if throws .toText then .error (result .toText) else .ok shape.text

/-- `Number(value)` -/
def toNumber : JsVal → Js F64
  | .undefined => .ok .nan
  | .null => .ok (.fin 0)
  | .bool b => .ok (.fin (if b then 1 else 0))
  | .num x => .ok x
  | .str s => .ok (stringToNumber s.units)
  | .symbol _ => .error (typeError (.lit "cannot convert a symbol to a number"))
  | .bigint n _ _ _ => .ok (roundF64 n)
  | .object shape throws result =>
    if throws .toNumber then .error (result .toNumber) else .ok shape.number

def member (key : Text) : List (JsString × JsVal) → JsVal
  | [] => .undefined
  | m :: ms => if m.1.units = key then m.2 else member key ms

/-- what an object with these members gives -/
def readMember (ms : List (JsString × JsVal)) : Op → JsVal
  | .get key | .getAgain key => member key ms
  | _ => .undefined

/-- what an object literal makes, or `JSON.parse` -/
def plainObject (ms : List (JsString × JsVal)) : JsVal :=
  .object
    { callable := false, isArray := false, isError := false, toJSON := false
      hasSuccess := ms.any fun m => m.1.units = txt "success"
      keys := ms.map Prod.fst
      length := 0, number := .nan
      text := .lit "[object Object]" }
    (fun _ => false) (readMember ms)

/-- an element in the text of its array; the elements here are values whose conversion is plain -/
def elementText : JsVal → Text
  | .undefined | .null => []
  | v =>
    match v.toText with
    | .ok s => s.units
    | .error _ => []

theorem elementText_small (v : JsVal) : ∀ c ∈ v.elementText, c < 0x10000 := by
  unfold elementText
  split
  · simp
  · simp
  · split
    · next s _ => exact s.small
    · simp

def joinText : List JsVal → Text
  | [] => []
  | [x] => x.elementText
  | x :: y :: xs => x.elementText ++ 44 :: joinText (y :: xs)

theorem joinText_small : ∀ xs : List JsVal, ∀ c ∈ joinText xs, c < 0x10000
  | [] => by simp [joinText]
  | [x] => elementText_small x
  | x :: y :: xs => by
    intro c hc
    rcases List.mem_append.mp hc with hc | hc
    · exact elementText_small x c hc
    · rcases List.mem_cons.mp hc with rfl | hc
      · norm_num
      · exact joinText_small (y :: xs) c hc

def readItem (xs : List JsVal) : Op → JsVal
  | .item i => (xs[i]?).getD .undefined
  | _ => .undefined

def plainArray (xs : List JsVal) : JsVal :=
  .object
    { callable := false, isArray := true, isError := false, hasSuccess := false, toJSON := false
      keys := [], length := xs.length
      text := ⟨joinText xs, joinText_small xs⟩, number := stringToNumber (joinText xs) }
    (fun _ => false) (readItem xs)

end JsVal

end NovaRuntime
