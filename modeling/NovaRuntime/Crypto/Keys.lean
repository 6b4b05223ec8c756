import NovaRuntime.Crypto.Subtle

/-!
# The keys the layer makes

* `KeyKind`   the keys of `importKey` and `generateKey`, by their algorithm and type;
* `importKey_kind`, `generateKey_kind`   they make no other.
-/

namespace NovaRuntime
open Lib

/-- the keys the layer makes -/
inductive KeyKind where
  | hmac (hash : JsString)
  | aesGcm (length : Nat)
  | ecdsaPublic (curve : JsString)
  | ecdsaPrivate (curve : JsString)

namespace KeyKind

def name : KeyKind → JsString
  | .hmac _ => .lit "HMAC"
  | .aesGcm _ => .lit "AES-GCM"
  | .ecdsaPublic _ | .ecdsaPrivate _ => .lit "ECDSA"

def type : KeyKind → JsString
  | .hmac _ | .aesGcm _ => .lit "secret"
  | .ecdsaPublic _ => .lit "public"
  | .ecdsaPrivate _ => .lit "private"

def algorithm (kind : KeyKind) : List (JsString × JsVal) :=
  (.lit "name", .str kind.name) ::
    match kind with
    | .hmac hash => [(.lit "hash", .str hash)]
    | .aesGcm length => [(.lit "length", .num (.ofNat length))]
    | .ecdsaPublic curve | .ecdsaPrivate curve => [(.lit "namedCurve", .str curve)]

def key (kind : KeyKind) (extractable : Bool) (usages : List JsVal) (raw : JsVal) : NewKey :=
  ⟨kind.type, kind.algorithm, extractable, usages, raw⟩

end KeyKind

namespace Subtle
variable {realm : Realm} {trace trace' : List NativeCall}

/-- An imported key is an HMAC, AES-GCM or public ECDSA key, as extractable as it was asked to be. -/
theorem importKey_kind {format : FormatArg} {data : Nat → Source} {algorithm : Algorithm}
    {extractable : JsVal} {usages : Js (List JsVal)} {key : NewKey}
    (h : run (importKey realm format data algorithm extractable usages) trace =
      (.ok key, trace')) :
    ∃ kind asked raw, key = KeyKind.key kind extractable.truthy asked (.str raw) ∧
      ∀ curve, kind ≠ .ecdsaPrivate curve := by
  unfold importKey at h
  obtain ⟨text, -, h⟩ := run_js_bind_ok _ h
  split at h
  · obtain ⟨concat, -, h⟩ := run_js_bind_ok _ h
    cases h
  obtain ⟨name, -, h⟩ := run_js_bind_ok _ h
  split at h
  · obtain ⟨curve, t, -, h⟩ := run_bind_ok _ h
    obtain ⟨point, -, h⟩ := run_js_bind_ok _ h
    obtain ⟨held, t', -, h⟩ := run_bind_ok _ h
    split at h
    · obtain ⟨asked, -, h⟩ := run_js_bind_ok _ h
      cases h
      exact ⟨.ecdsaPublic curve, asked, .hex point, rfl, nofun⟩
    · cases h
  split at h
  · next hname =>
    obtain ⟨hash, -, h⟩ := run_js_bind_ok _ h
    obtain ⟨asked, -, h⟩ := run_js_bind_ok _ h
    obtain ⟨bytes, -, h⟩ := run_js_bind_ok _ h
    cases h
    exact ⟨.hmac (realm.upper hash), asked, .hex bytes, by rw [hname]; rfl, nofun⟩
  split at h
  · next hname =>
    obtain ⟨bytes, -, h⟩ := run_js_bind_ok _ h
    obtain ⟨asked, -, h⟩ := run_js_bind_ok _ h
    obtain ⟨again, -, h⟩ := run_js_bind_ok _ h
    cases h
    exact ⟨.aesGcm (bytes.length * 8), asked, .hex again, by rw [hname]; rfl, nofun⟩
  · cases h

/-- A generated key is an AES-GCM key, or one of a pair of ECDSA keys, of which the public one is
extractable. -/
theorem generateKey_kind {algorithm : Algorithm} {extractable : JsVal}
    {usages : Js (List JsVal)} {made : Generated}
    (h : run (generateKey realm algorithm extractable usages) trace = (.ok made, trace')) :
    (∃ key asked raw, made = .secret key ∧
        key = KeyKind.key (.aesGcm 256) extractable.truthy asked (.str raw)) ∨
      (∃ privateKey publicKey shared curve sign verify scalar point,
        made = .pair privateKey publicKey shared ∧
        privateKey = KeyKind.key (.ecdsaPrivate curve) extractable.truthy sign (.str scalar) ∧
        publicKey = KeyKind.key (.ecdsaPublic curve) true verify point) := by
  unfold generateKey at h
  obtain ⟨name, -, h⟩ := run_js_bind_ok _ h
  split at h
  · obtain ⟨curve, t, -, h⟩ := run_bind_ok _ h
    obtain ⟨answer, t', -, h⟩ := run_bind_ok _ h
    split at h
    · obtain ⟨asked, -, h⟩ := run_js_bind_ok _ h
      cases h
      exact .inr ⟨_, _, _, curve, _, _, _, _, rfl, rfl, rfl⟩
    · cases h
  split at h
  · cases h
  · next hname =>
    obtain ⟨length, -, h⟩ := run_js_bind_ok _ h
    split at h
    · obtain ⟨asked, -, h⟩ := run_js_bind_ok _ h
      cases h
      rw [not_not] at hname
      exact .inl ⟨_, asked, _, rfl, by rw [hname]; rfl⟩
    · cases h

end Subtle

end NovaRuntime
