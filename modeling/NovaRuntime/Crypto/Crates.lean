import NovaRuntime.Crypto.Boundary

/-!
# What the host answers to HMAC and ECDSA

* `HmacVerifies`, `EcdsaVerifies`   what the crates promise;
* `hmacAnswer`, `signAnswer`, `verifyAnswer`   the answers, once the arguments have converted;
* `ReadsMaterial`   the material of a key is digits of bytes that the host takes.

The host answers null to what it cannot use, and accepts the tags and signatures that it gave.
-/

namespace NovaRuntime
open Lib

/-- what the crates promise of HMAC -/
def CryptoCrates.HmacVerifies (crates : CryptoCrates) : Prop :=
  ∀ hash key data, crates.hmacHolds hash key data (crates.hmac hash key data) = true

/-- What they promise of ECDSA; `pair` says which bytes are a private and the public key of a pair. -/
def CryptoCrates.EcdsaVerifies (crates : CryptoCrates)
    (pair : Curve → List UInt8 → List UInt8 → Prop) : Prop :=
  ∀ curve key point digest signature, pair curve key point →
    (crates.ecdsa curve).sign key digest = some signature →
      (crates.ecdsa curve).isPoint point = true ∧
        (crates.ecdsa curve).isSignature signature = true ∧
        (crates.ecdsa curve).verify point digest signature = true

/-! ## arguments -/

/-- an argument as the host gets it, if it converts -/
def argText (v : JsVal) : Option Text := v.toText.toOption.map fun s => decodeLossy s.units

/-- the material is digits of bytes that the host takes, if it reads them at all -/
def ReadsMaterial (material : Text) (takes : List UInt8 → Prop) : Prop :=
  ∀ bytes, fromHex material = some bytes → ∃ k, bytes = some k ∧ takes k

theorem arg_some {v : JsVal} {text : Text} (h : argText v = some text) :
    Native.arg v = ExceptT.mk (some (.ok text)) := by
  unfold argText at h
  unfold Native.arg
  cases hv : v.toText with
  | error e =>
    rw [hv] at h
    cases h
  | ok s =>
    rw [hv] at h
    cases h
    rfl

theorem arg_none {v : JsVal} (h : argText v = none) :
    ∃ e, Native.arg v = ExceptT.mk (some (.error e)) := by
  unfold argText at h
  unfold Native.arg
  cases hv : v.toText with
  | error e => exact ⟨e, rfl⟩
  | ok s =>
    rw [hv] at h
    cases h

theorem argText_hex (bytes : List UInt8) : argText (.str (.hex bytes)) = some (toHex bytes) := by
  have h := Option.some.inj (arg_hex bytes)
  exact congrArg some (Except.ok.inj h)

namespace Native
variable {α β : Type}

def Throws (m : Native α) : Prop := ∃ e, m = ExceptT.mk (some (.error e))

theorem Throws.bind {m : Native α} (h : Throws m) (f : α → Native β) : Throws (m >>= f) := by
  obtain ⟨e, rfl⟩ := h
  exact ⟨e, rfl⟩

end Native

namespace CryptoCrates
variable (crates : CryptoCrates)

/-- what the host answers to HMAC, if it does -/
def hmacAnswer (hash material : Text) (data : List UInt8) (tag : Option (List UInt8)) :
    Option JsVal :=
  (fromHex material).map fun key => key.elim .null fun k =>
    match Hash.parse hash, tag with
    | none, _ => .null
    | some hash, none => .str (.hex (crates.hmac hash k data))
    | some hash, some tag => .bool (crates.hmacHolds hash k data tag)

theorem nativeHmac_eq {hash : JsString} {raw : JsVal} {material : Text}
    (h : argText raw = some material) (data : List UInt8) (tag : Option (List UInt8)) :
    (crates.nativeHmac (.str hash) raw (.str (.hex data)) (tag.map fun t => .str (.hex t))).run =
      (crates.hmacAnswer (decodeLossy hash.units) material data tag).map .ok := by
  have hhash : Native.arg (.str hash) = ExceptT.mk (some (.ok (decodeLossy hash.units))) := rfl
  unfold nativeHmac hmacAnswer
  rw [Native.bind_ok hhash, Native.bind_ok (arg_some h), Native.bind_ok (arg_hex data)]
  cases tag with
  | none =>
    rw [Option.map_none]
    dsimp only
    cases fromHex material with
    | none => rfl
    | some key =>
      rw [pure_bind, Native.bind_ok (Native.orPanic_some rfl),
        Native.bind_ok (Native.orPanic_some (fromHex_toHex data))]
      cases key with
      | none => rfl
      | some k =>
        dsimp only [Option.map_some, Option.elim_some]
        cases Hash.parse (decodeLossy hash.units) <;> rfl
  | some tag =>
    rw [Option.map_some]
    dsimp only
    rw [arg_hex tag]
    cases fromHex material with
    | none => rfl
    | some key =>
      rw [map_eq_pure_bind, bind_assoc, Native.bind_ok rfl, pure_bind,
        Native.bind_ok (Native.orPanic_some rfl),
        Native.bind_ok (Native.orPanic_some (fromHex_toHex data))]
      cases key with
      | none => rfl
      | some k =>
        dsimp only [Option.map_some, Option.elim_some]
        rw [Native.bind_ok (Native.orPanic_some (fromHex_toHex tag))]
        cases Hash.parse (decodeLossy hash.units) <;> rfl

theorem nativeHmac_throws {raw : JsVal} (h : argText raw = none) (hash : JsString) (data : JsVal)
    (tag : Option JsVal) : Native.Throws (crates.nativeHmac (.str hash) raw data tag) := by
  have hhash : Native.arg (.str hash) = ExceptT.mk (some (.ok (decodeLossy hash.units))) := rfl
  unfold nativeHmac
  rw [Native.bind_ok hhash]
  exact Native.Throws.bind (arg_none h) _

theorem curveArg_some {v : JsVal} {text : Text} (h : argText v = some text) :
    crates.curveArg v = ExceptT.mk (some (.ok ((Curve.parse text).map crates.ecdsa))) := by
  unfold curveArg
  rw [Native.bind_ok (arg_some h)]
  rfl

def signAnswer (curve material : Text) (digest : List UInt8) : Option JsVal :=
  (Curve.parse curve).elim (some .null) fun c => (fromHex material).map fun key =>
    key.elim .null fun k =>
      ((crates.ecdsa c).sign k digest).elim .null fun signature => .str (.hex signature)

theorem nativeEcdsaSign_eq {value raw : JsVal} {curve material : Text}
    (hc : argText value = some curve) (h : argText raw = some material) (digest : List UInt8) :
    (crates.nativeEcdsaSign value raw (.str (.hex digest))).run =
      (crates.signAnswer curve material digest).map .ok := by
  unfold nativeEcdsaSign signAnswer
  rw [Native.bind_ok (crates.curveArg_some hc), Native.bind_ok (arg_some h),
    Native.bind_ok (arg_hex digest)]
  cases Curve.parse curve with
  | none => rfl
  | some c =>
    dsimp only [Option.map_some, Option.elim_some]
    cases fromHex material with
    | none => rfl
    | some key =>
      rw [Native.bind_ok (Native.orPanic_some rfl),
        Native.bind_ok (Native.orPanic_some (fromHex_toHex digest))]
      cases key with
      | none => rfl
      | some k =>
        dsimp only [Option.map_some, Option.elim_some]
        cases (crates.ecdsa c).sign k digest <;> rfl

def verifyAnswer (curve material : Text) (digest signature : List UInt8) : Option JsVal :=
  (Curve.parse curve).elim (some .null) fun c => (fromHex material).map fun key =>
    key.elim .null fun k =>
      if (crates.ecdsa c).isPoint k then
        .bool ((crates.ecdsa c).isSignature signature && (crates.ecdsa c).verify k digest signature)
      else .null

theorem nativeEcdsaVerify_eq {value raw : JsVal} {curve material : Text}
    (hc : argText value = some curve) (h : argText raw = some material)
    (digest signature : List UInt8) :
    (crates.nativeEcdsaVerify value raw (.str (.hex digest)) (.str (.hex signature))).run =
      (crates.verifyAnswer curve material digest signature).map .ok := by
  unfold nativeEcdsaVerify verifyAnswer
  rw [Native.bind_ok (crates.curveArg_some hc), Native.bind_ok (arg_some h),
    Native.bind_ok (arg_hex digest), Native.bind_ok (arg_hex signature)]
  cases Curve.parse curve with
  | none => rfl
  | some c =>
    dsimp only [Option.map_some, Option.elim_some]
    cases fromHex material with
    | none => rfl
    | some key =>
      rw [Native.bind_ok (Native.orPanic_some rfl),
        Native.bind_ok (Native.orPanic_some (fromHex_toHex digest)),
        Native.bind_ok (Native.orPanic_some (fromHex_toHex signature))]
      cases key with
      | none => rfl
      | some k =>
        dsimp only [Option.map_some, Option.elim_some]
        cases (crates.ecdsa c).isPoint k with
        | false => rfl
        | true => cases (crates.ecdsa c).isSignature signature <;> rfl

theorem curveArg_throws {v : JsVal} (h : argText v = none) : Native.Throws (crates.curveArg v) :=
  Native.Throws.bind (arg_none h) _

theorem nativeEcdsaSign_throws {curve raw : JsVal} (h : argText curve = none ∨ argText raw = none)
    (digest : JsVal) : Native.Throws (crates.nativeEcdsaSign curve raw digest) := by
  unfold nativeEcdsaSign
  cases hc : argText curve with
  | none => exact (crates.curveArg_throws hc).bind _
  | some text =>
    rw [Native.bind_ok (crates.curveArg_some hc)]
    exact Native.Throws.bind (arg_none (h.resolve_left (hc ▸ Option.some_ne_none _))) _

theorem nativeEcdsaVerify_throws {curve raw : JsVal}
    (h : argText curve = none ∨ argText raw = none) (digest signature : JsVal) :
    Native.Throws (crates.nativeEcdsaVerify curve raw digest signature) := by
  unfold nativeEcdsaVerify
  cases hc : argText curve with
  | none => exact (crates.curveArg_throws hc).bind _
  | some text =>
    rw [Native.bind_ok (crates.curveArg_some hc)]
    exact Native.Throws.bind (arg_none (h.resolve_left (hc ▸ Option.some_ne_none _))) _

theorem decodeLossy_of_parse {hash : Hash} {name : Text} (h : Hash.parse name = some hash) :
    decodeLossy name = name := by
  unfold Hash.parse at h
  split_ifs at h with h1 h2 h3 h4
  · rw [h1]; decide
  · rw [h2]; decide
  · rw [h3]; decide
  · rw [h4]; decide

theorem nativeDigest_eq {hash : Hash} {name : JsString} (h : Hash.parse name.units = some hash)
    (data : List UInt8) :
    (crates.nativeDigest (.str name) (.str (.hex data))).run =
      some (.ok (.str (.hex (crates.digest hash data)))) := by
  have hname : Native.arg (.str name) = ExceptT.mk (some (.ok name.units)) := by
    show ExceptT.mk (some (.ok (decodeLossy name.units))) = _
    rw [decodeLossy_of_parse h]
  unfold nativeDigest
  rw [Native.bind_ok hname, Native.bind_ok (arg_hex data),
    Native.bind_ok (Native.orPanic_some (fromHex_toHex data)), h]
  rfl

theorem readsMaterial_iff {material : Text} {answer : List UInt8 → JsVal} :
    ((fromHex material).map fun key => key.elim JsVal.null answer) ≠ some .null ↔
      ReadsMaterial material fun k => answer k ≠ .null := by
  unfold ReadsMaterial
  cases fromHex material with
  | none => exact iff_of_true nofun nofun
  | some key =>
    cases key with
    | none =>
      refine iff_of_false (not_not_intro rfl) fun h => ?_
      obtain ⟨k, hk, -⟩ := h none rfl
      cases hk
    | some k =>
      refine (not_congr Option.some_inj).trans ⟨?_, ?_⟩
      · rintro h bytes ⟨⟩
        exact ⟨k, rfl, h⟩
      · intro h
        obtain ⟨k', hk, hanswer⟩ := h (some k) rfl
        cases hk
        exact hanswer

theorem ReadsMaterial.congr {material : Text} {takes takes' : List UInt8 → Prop}
    (h : ∀ k, takes k ↔ takes' k) : ReadsMaterial material takes ↔ ReadsMaterial material takes' := by
  unfold ReadsMaterial
  simp only [h]

theorem hmacAnswer_ne_null (hash material : Text) (data : List UInt8) (tag : Option (List UInt8)) :
    crates.hmacAnswer hash material data tag ≠ some .null ↔
      ReadsMaterial material fun _ => (Hash.parse hash).isSome := by
  refine readsMaterial_iff.trans (ReadsMaterial.congr fun k => ?_)
  cases Hash.parse hash with
  | none => exact iff_of_false (not_not_intro rfl) (by decide)
  | some parsed => cases tag <;> exact iff_of_true nofun rfl

theorem signAnswer_ne_null (curve material : Text) (digest : List UInt8) :
    crates.signAnswer curve material digest ≠ some .null ↔
      ∃ c, Curve.parse curve = some c ∧
        ReadsMaterial material fun k => ((crates.ecdsa c).sign k digest).isSome := by
  unfold signAnswer
  cases Curve.parse curve with
  | none => exact iff_of_false (not_not_intro rfl) nofun
  | some c =>
    simp only [Option.elim_some, Option.some.injEq, exists_eq_left']
    refine readsMaterial_iff.trans (ReadsMaterial.congr fun k => ?_)
    cases (crates.ecdsa c).sign k digest with
    | none => exact iff_of_false (not_not_intro rfl) (by decide)
    | some signature => exact iff_of_true nofun rfl

theorem verifyAnswer_ne_null (curve material : Text) (digest signature : List UInt8) :
    crates.verifyAnswer curve material digest signature ≠ some .null ↔
      ∃ c, Curve.parse curve = some c ∧
        ReadsMaterial material fun k => (crates.ecdsa c).isPoint k = true := by
  unfold verifyAnswer
  cases Curve.parse curve with
  | none => exact iff_of_false (not_not_intro rfl) nofun
  | some c =>
    simp only [Option.elim_some, Option.some.injEq, exists_eq_left']
    refine readsMaterial_iff.trans (ReadsMaterial.congr fun k => ?_)
    cases (crates.ecdsa c).isPoint k with
    | false => exact iff_of_false (not_not_intro rfl) nofun
    | true => exact iff_of_true nofun rfl

theorem hmacAnswer_verify {hash material : Text} {data tag : List UInt8} {v : JsVal}
    (h : crates.hmacAnswer hash material data (some tag) = some v) :
    v = .null ∨ ∃ held, v = .bool held := by
  unfold hmacAnswer at h
  obtain ⟨key, -, rfl⟩ := Option.map_eq_some_iff.mp h
  cases key with
  | none => exact .inl rfl
  | some k =>
    dsimp only [Option.elim_some]
    cases Hash.parse hash with
    | none => exact .inl rfl
    | some parsed => exact .inr ⟨_, rfl⟩

theorem verifyAnswer_verify {curve material : Text} {digest signature : List UInt8} {v : JsVal}
    (h : crates.verifyAnswer curve material digest signature = some v) :
    v = .null ∨ ∃ held, v = .bool held := by
  unfold verifyAnswer at h
  cases hc : Curve.parse curve with
  | none =>
    rw [hc] at h
    cases h
    exact .inl rfl
  | some c =>
    rw [hc] at h
    obtain ⟨key, -, rfl⟩ := Option.map_eq_some_iff.mp h
    cases key with
    | none => exact .inl rfl
    | some k =>
      dsimp only [Option.elim_some]
      split
      · exact .inr ⟨_, rfl⟩
      · exact .inl rfl

section verifies
variable {crates}

/-- The host accepts the tag that it gave. -/
theorem hmacAnswer_accepts (hcrates : crates.HmacVerifies) {hash material : Text}
    {data : List UInt8} {v : JsVal}
    (h : crates.hmacAnswer hash material data none = some v) (hv : v ≠ .null) :
    ∃ tag, v = .str (.hex tag) ∧
      crates.hmacAnswer hash material data (some tag) = some (.bool true) := by
  unfold hmacAnswer at h ⊢
  obtain ⟨read, hread, rfl⟩ := Option.map_eq_some_iff.mp h
  cases read with
  | none => exact absurd rfl hv
  | some k =>
    cases hparse : Hash.parse hash with
    | none =>
      rw [hparse] at hv
      exact absurd rfl hv
    | some parsed =>
      refine ⟨crates.hmac parsed k data, rfl, ?_⟩
      rw [hread, ← hcrates parsed k data]
      rfl

/-- It accepts the signature that it gave, under a public key of the scalar. -/
theorem signAnswer_accepts {pair : Curve → List UInt8 → List UInt8 → Prop}
    (hcrates : crates.EcdsaVerifies pair) {curve material material' : Text} {c : Curve}
    {k point digest : List UInt8} {v : JsVal} (h : crates.signAnswer curve material digest = some v) (hv : v ≠ .null)
    (hparse : Curve.parse curve = some c) (hread : fromHex material = some (some k))
    (hread' : fromHex material' = some (some point)) (hpair : pair c k point) :
    ∃ signature, v = .str (.hex signature) ∧
      crates.verifyAnswer curve material' digest signature = some (.bool true) := by
  unfold signAnswer at h
  unfold verifyAnswer
  rw [hparse, hread, Option.elim_some, Option.map_some, Option.elim_some, Option.some.injEq] at h
  cases hsign : (crates.ecdsa c).sign k digest with
  | none =>
    rw [hsign] at h
    exact absurd h.symm hv
  | some signature =>
    rw [hsign] at h
    obtain ⟨hpoint, hsignature, hverify⟩ := hcrates c k point digest signature hpair hsign
    refine ⟨signature, h.symm, ?_⟩
    rw [hparse, hread', Option.elim_some, Option.map_some, Option.elim_some, if_pos hpoint,
      hsignature, hverify]
    rfl

end verifies

end CryptoCrates

end NovaRuntime
