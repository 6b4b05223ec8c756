import NovaRuntime.Lib.Hex
import NovaRuntime.Lib.Utf8
import NovaRuntime.Script.Value

/-!
# Cryptography on the host (`crypto.rs`)

Everything crosses as hexadecimal text.  A native either panics, which ends the worker, or answers;
converting an argument may throw.

* `fromHex`, `toHex`   the codec of this side;
* `CryptoCrates`       the algorithms, which are those of crates;
* `NativeCall`         a call with its arguments, and `CryptoCrates.answer` what it gives.
-/

namespace NovaRuntime
open Lib

/-- a native's answer: `none` is a panic -/
abbrev Native (α : Type) := ExceptT JsVal Option α

namespace Native

/-- an argument that is converted, which may run guest code -/
def arg (v : JsVal) : Native Text :=
  ExceptT.mk (some (v.toText.map fun s => decodeLossy s.units))

def orPanic {α : Type} (x : Option α) : Native α := ExceptT.mk (x.map .ok)

theorem bind_ok {α β : Type} {x : Native α} {a : α} (h : x = ExceptT.mk (some (.ok a)))
    (f : α → Native β) : (x >>= f) = f a := by
  subst h
  rfl

theorem orPanic_some {α : Type} {x : Option α} {a : α} (h : x = some a) :
    orPanic x = ExceptT.mk (some (.ok a)) := by
  rw [h]
  rfl

end Native

/-! ## hexadecimal text -/

/-- how many bytes a character takes in a Rust string -/
def utf8Size (c : Nat) : Nat := (Utf8.bytes c).length

/-- `u8::from_str_radix` in base 16, of two characters that take a byte each -/
def fromStrRadix (a b : Nat) : Option UInt8 :=
  if a = 43 then (Json.hexVal b).map UInt8.ofNat else Hex.pair a b

/-- `from_hex`; the outer `none` is the panic of a slice that cuts a character -/
def fromHex (text : Text) : Option (Option (List UInt8)) :=
  if (text.map utf8Size).sum % 2 = 0 then slices text else some none
where
  /-- two bytes at a time, up to the first slice that is no number -/
  slices : Text → Option (Option (List UInt8))
    | [] => some (some [])
    | [a] => if utf8Size a ≤ 2 then some none else none
    | a :: b :: rest =>
      if utf8Size a = 2 then some none
      else if utf8Size a = 1 ∧ utf8Size b = 1 then
        match fromStrRadix a b with
        | none => some none
        | some byte => (slices rest).map fun bytes => bytes.map (byte :: ·)
      else none

def toHex (bytes : List UInt8) : Text := Hex.ofBytes bytes

def JsString.hex (bytes : List UInt8) : JsString :=
  ⟨toHex bytes, fun c hc => lt_trans (Hex.ofBytes_ascii bytes c hc) (by norm_num)⟩

theorem utf8Size_ascii {c : Nat} (h : c < 128) : utf8Size c = 1 := by
  rw [utf8Size, Utf8.bytes, if_pos h]
  rfl

theorem slices_toHex (bytes : List UInt8) : fromHex.slices (toHex bytes) = some (some bytes) := by
  induction bytes with
  | nil => rfl
  | cons b bytes ih =>
    have h := b.toNat_lt
    have hhigh : b.toNat / 16 < 16 := by omega
    have hlow : b.toNat % 16 < 16 := Nat.mod_lt _ (by decide)
    show fromHex.slices (Json.hexChar (b.toNat / 16) :: Json.hexChar (b.toNat % 16) ::
      toHex bytes) = _
    rw [fromHex.slices, utf8Size_ascii (Hex.hexChar_lt _ hhigh),
      utf8Size_ascii (Hex.hexChar_lt _ hlow), if_neg (by decide), if_pos ⟨rfl, rfl⟩, fromStrRadix,
      if_neg (Hex.hexChar_ne (by decide) hhigh), Hex.pair_ofByte, ih]
    rfl

theorem size_ascii {text : Text} (h : ∀ c ∈ text, c < 128) :
    (text.map utf8Size).sum = text.length := by
  induction text with
  | nil => rfl
  | cons c text ih =>
    rw [List.map_cons, List.sum_cons, utf8Size_ascii (h c List.mem_cons_self),
      ih fun x hx => h x (List.mem_cons_of_mem _ hx), List.length_cons, Nat.add_comm]

/-- the host reads back what is written in lower-case digits -/
theorem fromHex_toHex (bytes : List UInt8) : fromHex (toHex bytes) = some (some bytes) := by
  have heven : ((toHex bytes).map utf8Size).sum % 2 = 0 := by
    rw [toHex, size_ascii (Hex.ofBytes_ascii bytes), Hex.length_ofBytes]
    exact Nat.mul_mod_right 2 _
  rw [fromHex, if_pos heven, slices_toHex]

theorem arg_hex (bytes : List UInt8) :
    Native.arg (.str (.hex bytes)) = ExceptT.mk (some (.ok (toHex bytes))) := by
  have hscalars : Scalars (toHex bytes) := fun c hc =>
    .inl (lt_trans (Hex.ofBytes_ascii bytes c hc) (by norm_num))
  have hself : encode (toHex bytes) = toHex bytes :=
    encode_bmp fun c hc => lt_trans (Hex.ofBytes_ascii bytes c hc) (by norm_num)
  have hdecode : decodeLossy (toHex bytes) = toHex bytes := by
    have h := decodeLossy_encode hscalars
    rwa [hself] at h
  show ExceptT.mk (some (.ok (decodeLossy (toHex bytes)))) = _
  rw [hdecode]

/-! ## the algorithms -/

inductive Hash where
  | sha1 | sha256 | sha384 | sha512
  deriving DecidableEq

def Hash.parse (s : Text) : Option Hash :=
  if s = txt "SHA-1" then some .sha1
  else if s = txt "SHA-256" then some .sha256
  else if s = txt "SHA-384" then some .sha384
  else if s = txt "SHA-512" then some .sha512
  else none

inductive Curve where
  | p256 | p384
  deriving DecidableEq

def Curve.parse (s : Text) : Option Curve :=
  if s = txt "P-256" then some .p256
  else if s = txt "P-384" then some .p384
  else none

/-- `Payload` of the aead crate -/
structure AeadPayload where
  msg : List UInt8
  aad : List UInt8

/-- the cipher of the aes-gcm crate, by key and nonce -/
structure Aes256Gcm where
  encrypt : List UInt8 → List UInt8 → AeadPayload → Option (List UInt8)
  decrypt : List UInt8 → List UInt8 → AeadPayload → Option (List UInt8)

/-- one curve of the p256 and p384 crates -/
structure EcdsaCurve where
  /-- a fresh scalar and its point -/
  generate : List UInt8 × List UInt8
  /-- `SigningKey::from_slice` and `sign_prehash` -/
  sign : List UInt8 → List UInt8 → Option (List UInt8)
  /-- `VerifyingKey::from_sec1_bytes` takes these bytes -/
  isPoint : List UInt8 → Bool
  /-- `Signature::from_slice` takes these bytes -/
  isSignature : List UInt8 → Bool
  verify : List UInt8 → List UInt8 → List UInt8 → Bool

structure CryptoCrates where
  digest : Hash → List UInt8 → List UInt8
  /-- the tag of a key and some data -/
  hmac : Hash → List UInt8 → List UInt8 → List UInt8
  /-- `verify_slice` -/
  hmacHolds : Hash → List UInt8 → List UInt8 → List UInt8 → Bool
  aes : Aes256Gcm
  ecdsa : Curve → EcdsaCurve

/-! ## the natives -/

inductive AesOp where
  | encrypt | decrypt
  deriving DecidableEq

/-- a call of a native, with its arguments as they are passed -/
inductive NativeCall where
  | digest (algorithm data : JsVal)
  | hmac (hash key data : JsVal) (tag : Option JsVal)
  | aesGcm (op : AesOp) (key iv data : JsVal)
  | ecdsaGenerate (curve : JsVal)
  | ecdsaCheck (curve point : JsVal)
  | ecdsaSign (curve key digest : JsVal)
  | ecdsaVerify (curve key digest signature : JsVal)

namespace CryptoCrates
variable (crates : CryptoCrates)

def nativeDigest (algorithm data : JsVal) : Native JsVal := do
  let algorithm ← Native.arg algorithm
  let input ← Native.arg data
  match ← Native.orPanic (fromHex input), Hash.parse algorithm with
  | some bytes, some hash => return .str (.hex (crates.digest hash bytes))
  | _, _ => return .null

def nativeHmac (hash key data : JsVal) (tag : Option JsVal) : Native JsVal := do
  let hash ← Native.arg hash
  let key ← Native.arg key
  let data ← Native.arg data
  let tag ← match tag with
    | none => pure none
    | some tag => some <$> Native.arg tag
  let key ← Native.orPanic (fromHex key)
  let data ← Native.orPanic (fromHex data)
  match key, data with
  | some key, some data =>
    match tag with
    | some tag =>
      match ← Native.orPanic (fromHex tag) with
      | none => return .bool false
      | some tag =>
        match Hash.parse hash with
        | some hash => return .bool (crates.hmacHolds hash key data tag)
        | none => return .null
    | none =>
      match Hash.parse hash with
      | some hash => return .str (.hex (crates.hmac hash key data))
      | none => return .null
  | _, _ => return .null

def nativeAesGcm (op : AesOp) (key iv data : JsVal) : Native JsVal := do
  let key ← Native.arg key
  let iv ← Native.arg iv
  let data ← Native.arg data
  let key ← Native.orPanic (fromHex key)
  let iv ← Native.orPanic (fromHex iv)
  let data ← Native.orPanic (fromHex data)
  match key, iv, data with
  | some key, some iv, some data =>
    if key.length = 32 ∧ iv.length = 12 then
      let payload : AeadPayload := ⟨data, []⟩
      let out := match op with
        | .encrypt => crates.aes.encrypt key iv payload
        | .decrypt => crates.aes.decrypt key iv payload
      match out with
      | none => return .bool false
      | some out => return .str (.hex out)
    else return .null
  | _, _, _ => return .null

/-- the curve that an argument names -/
def curveArg (curve : JsVal) : Native (Option EcdsaCurve) := do
  return (Curve.parse (← Native.arg curve)).map crates.ecdsa

def nativeEcdsaGenerate (curve : JsVal) : Native JsVal := do
  match ← crates.curveArg curve with
  | none => return .null
  | some curve =>
    return .str (((JsString.hex curve.generate.1).append (.lit ":")).append
      (.hex curve.generate.2))

def nativeEcdsaCheck (curve point : JsVal) : Native JsVal := do
  let curve ← crates.curveArg curve
  let point ← Native.arg point
  match curve with
  | none => return .null
  | some curve =>
    match ← Native.orPanic (fromHex point) with
    | none => return .bool false
    | some point => return .bool (curve.isPoint point)

def nativeEcdsaSign (curve key digest : JsVal) : Native JsVal := do
  let curve ← crates.curveArg curve
  let key ← Native.arg key
  let digest ← Native.arg digest
  match curve with
  | none => return .null
  | some curve =>
    let key ← Native.orPanic (fromHex key)
    let digest ← Native.orPanic (fromHex digest)
    match key, digest with
    | some key, some digest =>
      match curve.sign key digest with
      | some signature => return .str (.hex signature)
      | none => return .null
    | _, _ => return .null

def nativeEcdsaVerify (curve key digest signature : JsVal) : Native JsVal := do
  let curve ← crates.curveArg curve
  let key ← Native.arg key
  let digest ← Native.arg digest
  let signature ← Native.arg signature
  match curve with
  | none => return .null
  | some curve =>
    let key ← Native.orPanic (fromHex key)
    let digest ← Native.orPanic (fromHex digest)
    let signature ← Native.orPanic (fromHex signature)
    match key, digest, signature with
    | some key, some digest, some signature =>
      if !curve.isPoint key then return .null
      else if !curve.isSignature signature then return .bool false
      else return .bool (curve.verify key digest signature)
    | _, _, _ => return .null

def answer : NativeCall → Native JsVal
  | .digest algorithm data => crates.nativeDigest algorithm data
  | .hmac hash key data tag => crates.nativeHmac hash key data tag
  | .aesGcm op key iv data => crates.nativeAesGcm op key iv data
  | .ecdsaGenerate curve => crates.nativeEcdsaGenerate curve
  | .ecdsaCheck curve point => crates.nativeEcdsaCheck curve point
  | .ecdsaSign curve key digest => crates.nativeEcdsaSign curve key digest
  | .ecdsaVerify curve key digest signature =>
    crates.nativeEcdsaVerify curve key digest signature

end CryptoCrates

end NovaRuntime
