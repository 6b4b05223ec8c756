import NovaRuntime.Crypto.Native

/-!
# Web Crypto in the guest (`crypto.js`)

The operations of `crypto.subtle`, from their arguments to how they settle, with the calls of
natives they make on the way.

* `Fault`       how an operation fails; `Subtle` is one that may, and calls natives;
* `Algorithm`   an algorithm argument, by what each thing the layer does with it leads to;
* `CryptoKey`   a key argument, by what reading it gives;
* `NewKey`      the arguments of `new CryptoKey`.

A member that is read more than once may be an accessor that answers differently, so its reads are
numbered.
-/

namespace NovaRuntime
open Lib

inductive Fault where
  /-- a `DOMException` of the layer -/
  | exception (name : Text) (message : JsString)
  /-- what guest code, a conversion or the engine threw -/
  | thrown (value : JsVal)
  /-- a native panicked -/
  | crash

/-- what the layer takes from the engine and the host -/
structure Realm where
  /-- `String.prototype.toUpperCase` -/
  upper : JsString → JsString
  /-- `fromHex` of something that is not a string, by its own `length` and `slice` -/
  fromOther : JsVal → Js (List UInt8)
  /-- a native, after the calls before it -/
  native : List NativeCall → NativeCall → Native JsVal
  /-- `__ow_native_random` -/
  random : List NativeCall → Nat → List UInt8

/-- an operation: it fails or gives something, and has called natives, the newest first -/
abbrev Subtle (α : Type) := ExceptT Fault (StateM (List NativeCall)) α

namespace Subtle
variable {α : Type}

def js (x : Js α) : Subtle α := ExceptT.mk (pure (x.mapError .thrown))

/-- `throw new DOMException(message, name)` -/
def refuse (name : String) (message : JsString) : Subtle α := throw (.exception (txt name) message)

def native (realm : Realm) (call : NativeCall) : Subtle JsVal :=
  ExceptT.mk fun trace =>
    (match (realm.native trace call).run with
      | none => .error .crash
      | some answer => answer.mapError .thrown,
      call :: trace)

/-- how an operation ends that begins after `trace`, and the calls then -/
def run (m : Subtle α) (trace : List NativeCall) : Except Fault α × List NativeCall :=
  StateT.run (m := Id) (ExceptT.run m) trace

section run
variable {β : Type} (realm : Realm) (trace : List NativeCall)

theorem run_js (x : Js α) : run (js x) trace = (x.mapError .thrown, trace) := rfl

theorem run_bind (m : Subtle α) (f : α → Subtle β) :
    run (m >>= f) trace =
      match run m trace with
      | (.error e, t) => (.error e, t)
      | (.ok a, t) => run (f a) t := by
  show StateT.run (m := Id) (ExceptT.run (m >>= f)) trace = _
  rw [ExceptT.run_bind, StateT.run_bind]
  cases h : StateT.run (m := Id) (ExceptT.run m) trace with
  | mk result t => cases result <;> simp only [run, h] <;> rfl

theorem run_js_ok {x : Js α} {a : α} (h : x = .ok a) (f : α → Subtle β) :
    run (js x >>= f) trace = run (f a) trace := by
  rw [run_bind, run_js, h]
  rfl

theorem run_js_error {x : Js α} {e : JsVal} (h : x = .error e) (f : α → Subtle β) :
    run (js x >>= f) trace = (.error (.thrown e), trace) := by
  rw [run_bind, run_js, h]
  rfl

theorem run_map (f : α → β) (m : Subtle α) :
    run (f <$> m) trace = ((run m trace).1.map f, (run m trace).2) := by
  rw [← bind_pure_comp, run_bind]
  cases h : run m trace with
  | mk result t => cases result <;> rfl

theorem run_native_crash {call : NativeCall} (h : (realm.native trace call).run = none) :
    run (native realm call) trace = (.error .crash, call :: trace) := by
  show (match (realm.native trace call).run with
      | none => Except.error Fault.crash
      | some answer => answer.mapError .thrown, call :: trace) = _
  rw [h]

theorem run_native_ok {call : NativeCall} {v : JsVal}
    (h : (realm.native trace call).run = some (.ok v)) :
    run (native realm call) trace = (.ok v, call :: trace) := by
  show (match (realm.native trace call).run with
      | none => Except.error Fault.crash
      | some answer => answer.mapError .thrown, call :: trace) = _
  rw [h]
  rfl

theorem run_bind_ok {m : Subtle α} {f : α → Subtle β} {b : β} {trace' : List NativeCall}
    (h : run (m >>= f) trace = (.ok b, trace')) :
    ∃ a t, run m trace = (.ok a, t) ∧ run (f a) t = (.ok b, trace') := by
  rw [run_bind] at h
  cases hm : run m trace with
  | mk result t =>
    rw [hm] at h
    cases result with
    | error e => cases h
    | ok a => exact ⟨a, t, rfl, h⟩

theorem run_js_bind_ok {x : Js α} {f : α → Subtle β} {b : β} {trace' : List NativeCall}
    (h : run (js x >>= f) trace = (.ok b, trace')) :
    ∃ a, x = .ok a ∧ run (f a) trace = (.ok b, trace') := by
  cases hx : x with
  | error e =>
    rw [run_js_error trace hx] at h
    cases h
  | ok a => exact ⟨a, rfl, by rwa [run_js_ok trace hx] at h⟩

end run

end Subtle

/-! ## arguments -/

inductive Source where
  | bytes (b : List UInt8)
  /-- neither a buffer nor a view of one -/
  | other

def bytesOfSource : Source → Js (List UInt8)
  | .bytes b => .ok b
  | .other => .error
      (.typeError (.lit "the data to digest has to be a buffer or a view of one"))

/-- an argument of which the layer makes a string, and that it names in a message -/
structure FormatArg where
  /-- `String(format)` -/
  text : Js JsString
  /-- `format + ..` -/
  concat : Js JsString

structure Algorithm where
  /-- it is not null, and `typeof` says it is an object -/
  isObject : Bool
  /-- `String(algorithm)` -/
  text : Nat → Js JsString
  name : Nat → Js JsVal
  hash : Nat → Js JsVal
  namedCurve : Js JsVal
  length : Js JsVal
  iv : Js Source
  /-- the bytes of `additionalData`, if it is there -/
  additionalData : Option (List UInt8)

structure CryptoKey where
  type : JsVal
  /-- the members of `key.algorithm` -/
  algorithm : Text → Js JsVal
  extractable : JsVal
  /-- the entry of `material`, which may be undefined or not there -/
  raw : JsVal

/-- what `new CryptoKey` is given -/
structure NewKey where
  type : JsString
  algorithm : List (JsString × JsVal)
  extractable : Bool
  usages : List JsVal
  raw : JsVal

/-- a key that guest code has not written to -/
def NewKey.view (key : NewKey) : CryptoKey where
  type := .str key.type
  algorithm member := .ok (JsVal.member member key.algorithm)
  extractable := .bool key.extractable
  raw := key.raw

/-! ## text -/

/-- `parseInt(s, 16)`; `none` is NaN -/
def parseInt16 (s : Text) : Option Int :=
  let s := s.dropWhile isJsSpace
  let (neg, s) := match s with
    | 43 :: r => (false, r)
    | 45 :: r => (true, r)
    | r => (false, r)
  let s := match s with
    | 48 :: x :: r => if x = 120 ∨ x = 88 then r else 48 :: x :: r
    | r => r
  (radixNumber 16 (s.takeWhile fun c => (Json.hexVal c).isSome)).map fun n =>
    if neg then -(n : Int) else n

/-- a number stored in a `Uint8Array` -/
def toUint8 : Option Int → UInt8
  | none => 0
  | some n => UInt8.ofNat (n % 256).toNat

/-- `fromHex` of a string -/
def bytesOfHex : Text → List UInt8
  | a :: b :: rest => toUint8 (parseInt16 [a, b]) :: bytesOfHex rest
  | _ => []

theorem toUint8_pair : ∀ n, n < 256 →
    toUint8 (parseInt16 [Json.hexChar (n / 16), Json.hexChar (n % 16)]) = UInt8.ofNat n := by
  decide +kernel

/-- the guest reads back what the host writes -/
theorem bytesOfHex_toHex (bytes : List UInt8) : bytesOfHex (toHex bytes) = bytes := by
  induction bytes with
  | nil => rfl
  | cons b bytes ih =>
    show toUint8 (parseInt16 [Json.hexChar (b.toNat / 16), Json.hexChar (b.toNat % 16)]) ::
      bytesOfHex (toHex bytes) = _
    rw [ih, toUint8_pair _ b.toNat_lt, UInt8.ofNat_toNat]

def typeofObject : JsVal → Bool
  | .null => true
  | .object shape _ _ => !shape.callable
  | _ => false

def JsVal.isNull : JsVal → Bool
  | .null => true
  | _ => false

def JsVal.isText (s : JsString) : JsVal → Bool
  | .str t => decide (t = s)
  | _ => false

def JsVal.isTrue : JsVal → Bool
  | .bool b => b
  | _ => false

namespace Subtle
variable (realm : Realm)

def fromHex : JsVal → Js (List UInt8)
  | .str s => .ok (bytesOfHex s.units)
  | v => realm.fromOther v

def algorithmName (algorithm : Algorithm) (read : Nat) : Js JsString := do
  let text ← if algorithm.isObject then (← algorithm.name read).toText else algorithm.text read
  return realm.upper text

def rawOf (key : CryptoKey) : Subtle JsVal :=
  match key.raw with
  | .undefined => refuse "InvalidAccessError" (.lit "that is not a key this runtime made")
  | raw => pure raw

theorem rawOf_str {key : CryptoKey} {raw : JsString} (h : key.raw = .str raw) :
    rawOf key = pure (.str raw) := by
  rw [rawOf, h]

def hashOf (algorithm : Algorithm) (key : CryptoKey) : Js JsString := do
  let hash ← if algorithm.isObject then algorithm.hash 0 else pure JsVal.undefined
  let hash ← match hash with
    | .undefined => key.algorithm (txt "hash")
    | hash => .ok hash
  return realm.upper (← hash.toText)

def digests : List JsString := [.lit "SHA-1", .lit "SHA-256", .lit "SHA-384", .lit "SHA-512"]

def curves : List JsString := [.lit "P-256", .lit "P-384"]

def curveOf (algorithm : Algorithm) : Subtle JsString := do
  let curve ← js (do (← algorithm.namedCurve).toText)
  if curve ∈ curves then return curve
  else refuse "NotSupportedError" (curve.append (.lit " is not a curve this runtime has"))

/-! ## keys -/

/-- `importKey`; `data` is looked at twice when the key is secret -/
def importKey (format : FormatArg) (data : Nat → Source) (algorithm : Algorithm)
    (extractable : JsVal) (usages : Js (List JsVal)) : Subtle NewKey := do
  if (← js format.text) ≠ .lit "raw" then
    refuse "NotSupportedError" ((← js format.concat).append (.lit " keys are not imported here"))
  else
    let name ← js (algorithmName realm algorithm 0)
    if name = .lit "ECDSA" then
      let curve ← curveOf algorithm
      let point ← js (bytesOfSource (data 0))
      let held ← native realm (.ecdsaCheck (.str curve) (.str (.hex point)))
      if held.isTrue then
        return ⟨.lit "public", [(.lit "name", .str (.lit "ECDSA")), (.lit "namedCurve", .str curve)],
          extractable.truthy, ← js usages, .str (.hex point)⟩
      else refuse "DataError" ((JsString.lit "that is not a point on ").append curve)
    else if name = .lit "HMAC" then
      let hash ← js (do (← algorithm.hash 0).toText)
      let usages ← js usages
      return ⟨.lit "secret", [(.lit "name", .str name), (.lit "hash", .str (realm.upper hash))],
        extractable.truthy, usages, .str (.hex (← js (bytesOfSource (data 0))))⟩
    else if name = .lit "AES-GCM" then
      let bytes ← js (bytesOfSource (data 0))
      let usages ← js usages
      return ⟨.lit "secret", [(.lit "name", .str name),
        (.lit "length", .num (.ofNat (bytes.length * 8)))],
        extractable.truthy, usages, .str (.hex (← js (bytesOfSource (data 1))))⟩
    else refuse "NotSupportedError" (name.append (.lit " is not a key algorithm here"))

/-- a native's text up to the first colon, and from there to the next -/
def splitPair (s : Text) : Text × Option Text :=
  (s.takeWhile (· ≠ 58), match s.dropWhile (· ≠ 58) with
    | [] => none
    | _ :: rest => some (rest.takeWhile (· ≠ 58)))

theorem small_takeWhile {s : Text} (h : ∀ c ∈ s, c < 0x10000) (p : Nat → Bool) :
    ∀ c ∈ s.takeWhile p, c < 0x10000 :=
  fun c hc => h c (List.takeWhile_subset p hc)

theorem small_afterColon {s r : Text} (h : ∀ c ∈ s, c < 0x10000) (hr : (splitPair s).2 = some r) :
    ∀ c ∈ r, c < 0x10000 := by
  unfold splitPair at hr
  split at hr
  · cases hr
  · next hdrop =>
    cases hr
    refine small_takeWhile (fun c hc => h c ?_) _
    exact List.dropWhile_subset _ (hdrop ▸ List.mem_cons_of_mem _ hc)

/-- `s.split(':')`, of which the first two are taken -/
def scalarPoint (s : JsString) : JsVal × JsVal :=
  (.str ⟨(splitPair s.units).1, small_takeWhile s.small _⟩,
    match h : (splitPair s.units).2 with
    | none => .undefined
    | some point => .str ⟨point, small_afterColon s.small h⟩)

/-- what `generateKey` makes: one key, or the private and the public key of a pair, which share
their `algorithm` -/
inductive Generated where
  | secret (key : NewKey)
  | pair (privateKey publicKey : NewKey) (shared : privateKey.algorithm = publicKey.algorithm)

def generateKey (algorithm : Algorithm) (extractable : JsVal) (usages : Js (List JsVal)) :
    Subtle Generated := do
  let name ← js (algorithmName realm algorithm 0)
  if name = .lit "ECDSA" then
    let curve ← curveOf algorithm
    match ← native realm (.ecdsaGenerate (.str curve)) with
    | .str text =>
      let shape := [(JsString.lit "name", JsVal.str (.lit "ECDSA")),
        (JsString.lit "namedCurve", JsVal.str curve)]
      let asked ← js usages
      return .pair
        ⟨.lit "private", shape, extractable.truthy, asked.filter fun u => u.isText (.lit "sign"),
          (scalarPoint text).1⟩
        ⟨.lit "public", shape, true, asked.filter fun u => u.isText (.lit "verify"),
          (scalarPoint text).2⟩ rfl
    | _ => js (.error (.typeError (.lit "this value has no split")))
  else if name ≠ .lit "AES-GCM" then
    refuse "NotSupportedError" (name.append (.lit " pairs are not generated here"))
  else
    let length ← js (do (← algorithm.length).toNumber)
    -- zero and NaN are replaced by the default
    if length = .ofNat 256 ∨ length = .ofNat 0 ∨ length = .nan then
      let usages ← js usages
      let trace ← get
      return .secret ⟨.lit "secret", [(.lit "name", .str name), (.lit "length", .num (.ofNat 256))],
        extractable.truthy, usages, .str (.hex (realm.random trace 32))⟩
    else refuse "NotSupportedError" (.lit "AES-GCM here takes a 256 bit key")

def exportKey (format : FormatArg) (key : CryptoKey) : Subtle (List UInt8) := do
  if (← js format.text) ≠ .lit "raw" then
    refuse "NotSupportedError" ((← js format.concat).append (.lit " keys are not exported here"))
  else if !key.extractable.truthy then
    refuse "InvalidAccessError" (.lit "that key was imported as not extractable")
  else if (← js (key.algorithm (txt "name"))).isText (.lit "ECDSA") &&
      !key.type.isText (.lit "public") then
    refuse "InvalidAccessError" (.lit "only a public key has a raw form")
  else
    js (fromHex realm (← rawOf key))

/-! ## operations with a key -/

/-- the hash that the third read of `algorithm.hash` names, or that is what it is -/
def ecdsaHash (algorithm : Algorithm) : Js JsString := do
  let first ← algorithm.hash 0
  let value ← if first.isNull then algorithm.hash 1
    else if typeofObject (← algorithm.hash 1) then (← algorithm.hash 2).get (txt "name")
    else algorithm.hash 2
  return realm.upper (← value.toText)

/-- what `ecdsa` does before the host signs or verifies: the check of the key, and the digest -/
def ecdsaDigest (wanted op : String) (algorithm : Algorithm) (key : CryptoKey) (data : Source) :
    Subtle (JsVal × JsVal) := do
  if !(← js (key.algorithm (txt "name"))).isText (.lit "ECDSA") || !key.type.isText (.lit wanted) then
    refuse "InvalidAccessError" ((JsString.lit "that key cannot ").append (.lit op))
  else
    let hash ← js (ecdsaHash realm algorithm)
    if hash ∉ digests then
      refuse "NotSupportedError" (hash.append (.lit " is not a digest this runtime has"))
    else
      let data ← js (bytesOfSource data)
      let digest ← native realm (.digest (.str hash) (.str (.hex data)))
      return (digest, ← js (key.algorithm (txt "namedCurve")))

def sign (algorithm : Algorithm) (key : CryptoKey) (data : Source) : Subtle (List UInt8) := do
  if (← js (algorithmName realm algorithm 0)) = .lit "ECDSA" then
    let (digest, curve) ← ecdsaDigest realm "private" "sign" algorithm key data
    let raw ← rawOf key
    js (fromHex realm (← native realm (.ecdsaSign curve raw digest)))
  else if (← js (algorithmName realm algorithm 1)) ≠ .lit "HMAC" then
    refuse "NotSupportedError" (.lit "only HMAC and ECDSA sign here")
  else
    let hash ← js (hashOf realm algorithm key)
    let raw ← rawOf key
    let data ← js (bytesOfSource data)
    let tag ← native realm (.hmac (.str hash) raw (.str (.hex data)) none)
    if tag.isNull then
      refuse "NotSupportedError" (.lit "that is not a hash this runtime has")
    else js (fromHex realm tag)

def verify (algorithm : Algorithm) (key : CryptoKey) (signature data : Source) : Subtle Bool := do
  if (← js (algorithmName realm algorithm 0)) = .lit "ECDSA" then
    let (digest, curve) ← ecdsaDigest realm "public" "verify" algorithm key data
    let raw ← rawOf key
    let signature ← js (bytesOfSource signature)
    return (← native realm (.ecdsaVerify curve raw digest (.str (.hex signature)))).isTrue
  else if (← js (algorithmName realm algorithm 1)) ≠ .lit "HMAC" then
    refuse "NotSupportedError" (.lit "only HMAC and ECDSA verify here")
  else
    let hash ← js (hashOf realm algorithm key)
    let raw ← rawOf key
    let data ← js (bytesOfSource data)
    let signature ← js (bytesOfSource signature)
    return (← native realm
      (.hmac (.str hash) raw (.str (.hex data)) (some (.str (.hex signature))))).isTrue

/-- `encrypt` and `decrypt` -/
def aes (op : AesOp) (algorithm : Algorithm) (key : CryptoKey) (data : Source) :
    Subtle (List UInt8) := do
  if (← js (algorithmName realm algorithm 0)) ≠ .lit "AES-GCM" then
    refuse "NotSupportedError" (.lit "only AES-GCM is a cipher here")
  else
    let raw ← rawOf key
    let iv ← js (algorithm.iv.bind bytesOfSource)
    let data ← js (bytesOfSource data)
    let out ← native realm (.aesGcm op raw (.str (.hex iv)) (.str (.hex data)))
    if out.isNull then
      refuse "DataError" (.lit "AES-GCM here takes a 256 bit key and a 12 byte iv")
    else if out.isFalse then
      refuse "OperationError" (.lit "the tag does not hold")
    else js (fromHex realm out)

end Subtle

/-! ## plain arguments -/

/-- an algorithm argument that is an object literal -/
def Algorithm.plain (name : JsString) (hash : JsVal) (iv : Source)
    (additionalData : Option (List UInt8)) : Algorithm where
  isObject := true
  text _ := .ok (.lit "[object Object]")
  name _ := .ok (.str name)
  hash _ := .ok hash
  namedCurve := .ok .undefined
  length := .ok .undefined
  iv := .ok iv
  additionalData := additionalData

def upperAscii (s : JsString) : JsString where
  units := s.units.map fun c => if 97 ≤ c ∧ c ≤ 122 then c - 32 else c
  small := by
    intro c hc
    obtain ⟨d, hd, rfl⟩ := List.mem_map.mp hc
    have h := s.small d hd
    split <;> omega

/-- the natives over some crates, with `upperAscii` -/
def Realm.ascii (crates : CryptoCrates) : Realm where
  upper := upperAscii
  fromOther _ := .ok []
  native _ call := crates.answer call
  random _ count := List.replicate count 0

/-- crates that compute nothing -/
def CryptoCrates.inert : CryptoCrates where
  digest _ _ := []
  hmac _ _ _ := []
  hmacHolds _ _ _ _ := false
  aes := ⟨fun _ _ _ => none, fun _ _ _ => none⟩
  ecdsa _ := ⟨([], []), fun _ _ => none, fun _ => false, fun _ => false, fun _ _ _ => false⟩

end NovaRuntime
