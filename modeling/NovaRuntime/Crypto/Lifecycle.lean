import NovaRuntime.Crypto.Agreement
import NovaRuntime.Crypto.Extractable
import NovaRuntime.Crypto.Sealing

/-!
# The life of a key

A key is made, exported as its bytes, and imported from them, perhaps by another party.

* `Made`      a key that `importKey` or `generateKey` made;
* `Holds`     the material that such a key has;
* `Asks`      an algorithm argument that asks `importKey` for keys of a kind;
* `restored`  a key that was imported from what was exported does what the first one does.
-/

namespace NovaRuntime
open Lib

/-- the format that the layer knows -/
def rawFormat : FormatArg := ⟨.ok (.lit "raw"), .ok (.lit "raw")⟩

/-- a key with other flags -/
def NewKey.withFlags (key : NewKey) (extractable : Bool) (usages : List JsVal) : NewKey :=
  { key with extractable := extractable, usages := usages }

/-- the material of the keys that the layer makes -/
inductive KeyKind.Holds (crates : CryptoCrates) : KeyKind → List UInt8 → Prop
  | hmac (hash : JsString) (bytes : List UInt8) : Holds crates (.hmac hash) bytes
  | aesGcm (bytes : List UInt8) : Holds crates (.aesGcm (bytes.length * 8)) bytes
  | ecdsaPublic (curve : JsString) (c : Curve) (bytes : List UInt8) (hmem : curve ∈ Subtle.curves)
      (hparse : Curve.parse curve.units = some c) (hpoint : (crates.ecdsa c).isPoint bytes = true) :
      Holds crates (.ecdsaPublic curve) bytes
  | ecdsaPrivate (curve : JsString) (bytes : List UInt8) : Holds crates (.ecdsaPrivate curve) bytes

/-- what the crate promises of its cipher -/
def Aes256Gcm.Opens (aes : Aes256Gcm) : Prop :=
  ∀ key nonce payload ct, aes.encrypt key nonce payload = some ct →
    aes.decrypt key nonce ⟨ct, payload.aad⟩ = some payload.msg

namespace Subtle
section
variable (realm : Realm) (crates : CryptoCrates)

/-- A key that the layer made, of a buffer that does not change meanwhile if it was imported. -/
inductive Made : NewKey → Prop
  | imported {format : FormatArg} {b : List UInt8} {algorithm : Algorithm} {extractable : JsVal}
      {usages : Js (List JsVal)} {key : NewKey} {trace trace' : List NativeCall}
      (h : run (importKey (hosted realm crates) format (fun _ => .bytes b) algorithm extractable
        usages) trace = (.ok key, trace')) : Made key
  | secret {algorithm : Algorithm} {extractable : JsVal} {usages : Js (List JsVal)} {key : NewKey}
      {trace trace' : List NativeCall}
      (h : run (generateKey (hosted realm crates) algorithm extractable usages) trace =
        (.ok (.secret key), trace')) : Made key
  | ofPair {algorithm : Algorithm} {extractable : JsVal} {usages : Js (List JsVal)}
      {privateKey publicKey : NewKey} {shared : privateKey.algorithm = publicKey.algorithm}
      {trace trace' : List NativeCall}
      (h : run (generateKey (hosted realm crates) algorithm extractable usages) trace =
        (.ok (.pair privateKey publicKey shared), trace'))
      {key : NewKey} (hkey : key = privateKey ∨ key = publicKey) : Made key

/-- what the host promises of random bytes and of the points it generates -/
structure Generates : Prop where
  random (trace : List NativeCall) (n : Nat) : (realm.random trace n).length = n
  point (c : Curve) : (crates.ecdsa c).isPoint (crates.ecdsa c).generate.2 = true

/-- an argument that asks for keys of this kind -/
inductive Asks (algorithm : Algorithm) : KeyKind → Prop
  | hmac (hash : JsString) (hname : algorithmName realm algorithm 0 = .ok (.lit "HMAC"))
      (hhash : (do (← algorithm.hash 0).toText) = .ok hash) :
      Asks algorithm (.hmac (realm.upper hash))
  | aesGcm (length : Nat) (hname : algorithmName realm algorithm 0 = .ok (.lit "AES-GCM")) :
      Asks algorithm (.aesGcm length)
  | ecdsaPublic (curve : JsString) (hname : algorithmName realm algorithm 0 = .ok (.lit "ECDSA"))
      (hcurve : (do (← algorithm.namedCurve).toText) = .ok curve) :
      Asks algorithm (.ecdsaPublic curve)

end

/-! ## what the layer makes -/

section
variable {realm : Realm} {crates : CryptoCrates} {algorithm : Algorithm} {extractable : JsVal}
  {usages : Js (List JsVal)} {trace trace' : List NativeCall}

theorem mem_curves {curve : JsString} (h : run (curveOf algorithm) trace = (.ok curve, trace')) :
    curve ∈ curves ∧ trace' = trace := by
  unfold curveOf at h
  obtain ⟨named, -, h⟩ := run_js_bind_ok _ h
  split at h
  · next hnamed =>
    cases h
    exact ⟨hnamed, rfl⟩
  · cases h

theorem check_answer (crates : CryptoCrates) {curve : JsString} (h : curve ∈ curves)
    (point : List UInt8) : ∃ c, Curve.parse curve.units = some c ∧
      (crates.nativeEcdsaCheck (.str curve) (.str (.hex point))).run =
        some (.ok (.bool ((crates.ecdsa c).isPoint point))) := by
  obtain ⟨c, hparse, htext, -⟩ := generate_answer crates h
  refine ⟨c, hparse, ?_⟩
  unfold CryptoCrates.nativeEcdsaCheck
  rw [Native.bind_ok (crates.curveArg_some htext), Native.bind_ok (arg_hex point), hparse,
    Option.map_some]
  dsimp only
  rw [Native.bind_ok (Native.orPanic_some (fromHex_toHex point))]
  rfl

theorem importKey_holds {format : FormatArg} {b : List UInt8} {key : NewKey}
    (h : run (importKey (hosted realm crates) format (fun _ => .bytes b) algorithm extractable
      usages) trace = (.ok key, trace')) :
    ∃ kind asked, key = KeyKind.key kind extractable.truthy asked (.str (.hex b)) ∧
      kind.Holds crates b := by
  unfold importKey at h
  obtain ⟨text, -, h⟩ := run_js_bind_ok _ h
  split at h
  · obtain ⟨concat, -, h⟩ := run_js_bind_ok _ h
    cases h
  obtain ⟨name, -, h⟩ := run_js_bind_ok _ h
  split at h
  · obtain ⟨curve, t, hcurve, h⟩ := run_bind_ok _ h
    obtain ⟨point, hpoint, h⟩ := run_js_bind_ok _ h
    obtain ⟨held, t', hheld, h⟩ := run_bind_ok _ h
    cases hpoint
    obtain ⟨hmem, rfl⟩ := mem_curves hcurve
    obtain ⟨c, hparse, hcheck⟩ := check_answer crates hmem b
    have hnative : ((hosted realm crates).native t
        (.ecdsaCheck (.str curve) (.str (.hex b)))).run = _ := hcheck
    rw [run_native_ok _ _ hnative] at hheld
    cases hheld
    split at h
    · next hpoint =>
      obtain ⟨asked, -, h⟩ := run_js_bind_ok _ h
      cases h
      exact ⟨.ecdsaPublic curve, asked, rfl, .ecdsaPublic curve c b hmem hparse hpoint⟩
    · cases h
  split at h
  · next hname =>
    obtain ⟨hash, -, h⟩ := run_js_bind_ok _ h
    obtain ⟨asked, -, h⟩ := run_js_bind_ok _ h
    obtain ⟨bytes, hbytes, h⟩ := run_js_bind_ok _ h
    cases hbytes
    cases h
    exact ⟨.hmac (realm.upper hash), asked, by rw [hname]; rfl, .hmac _ b⟩
  split at h
  · next hname =>
    obtain ⟨bytes, hbytes, h⟩ := run_js_bind_ok _ h
    obtain ⟨asked, -, h⟩ := run_js_bind_ok _ h
    obtain ⟨again, hagain, h⟩ := run_js_bind_ok _ h
    cases hbytes
    cases hagain
    cases h
    exact ⟨.aesGcm (b.length * 8), asked, by rw [hname]; rfl, .aesGcm b⟩
  · cases h

theorem holds_aesGcm {bytes : List UInt8} (h : bytes.length = 32) :
    KeyKind.Holds crates (.aesGcm 256) bytes := by
  have hholds : KeyKind.Holds crates (.aesGcm (bytes.length * 8)) bytes := .aesGcm bytes
  rwa [h] at hholds

theorem generateKey_pair {privateKey publicKey : NewKey}
    {shared : privateKey.algorithm = publicKey.algorithm}
    (h : run (generateKey (hosted realm crates) algorithm extractable usages) trace =
      (.ok (.pair privateKey publicKey shared), trace')) :
    ∃ curve c sign verify, curve ∈ curves ∧ Curve.parse curve.units = some c ∧
      privateKey = KeyKind.key (.ecdsaPrivate curve) extractable.truthy sign
        (.str (.hex (crates.ecdsa c).generate.1)) ∧
      publicKey = KeyKind.key (.ecdsaPublic curve) true verify
        (.str (.hex (crates.ecdsa c).generate.2)) := by
  unfold generateKey at h
  obtain ⟨name, -, h⟩ := run_js_bind_ok _ h
  split at h
  · obtain ⟨curve, t, hcurve, h⟩ := run_bind_ok _ h
    obtain ⟨answer, t', hanswer, h⟩ := run_bind_ok _ h
    obtain ⟨hmem, rfl⟩ := mem_curves hcurve
    obtain ⟨c, hparse, -, hgenerate⟩ := generate_answer crates hmem
    have hnative : ((hosted realm crates).native t (.ecdsaGenerate (.str curve))).run = _ := hgenerate
    rw [run_native_ok _ _ hnative] at hanswer
    cases hanswer
    obtain ⟨asked, -, h⟩ := run_js_bind_ok _ h
    have hhalves := scalarPoint_hex (crates.ecdsa c).generate.1 (crates.ecdsa c).generate.2
    cases h
    refine ⟨curve, c, asked.filter fun u => u.isText (.lit "sign"),
      asked.filter fun u => u.isText (.lit "verify"), hmem, hparse, ?_, ?_⟩
    · rw [hhalves]
      rfl
    · rw [hhalves]
      rfl
  split at h
  · cases h
  · obtain ⟨length, -, h⟩ := run_js_bind_ok _ h
    split at h
    · obtain ⟨asked, -, h⟩ := run_js_bind_ok _ h
      cases h
    · cases h

theorem generateKey_secret {key : NewKey}
    (h : run (generateKey (hosted realm crates) algorithm extractable usages) trace =
      (.ok (.secret key), trace')) :
    ∃ asked before, key = KeyKind.key (.aesGcm 256) extractable.truthy asked
      (.str (.hex (realm.random before 32))) := by
  unfold generateKey at h
  obtain ⟨name, -, h⟩ := run_js_bind_ok _ h
  split at h
  · obtain ⟨curve, t, hcurve, h⟩ := run_bind_ok _ h
    obtain ⟨answer, t', hanswer, h⟩ := run_bind_ok _ h
    split at h
    · obtain ⟨asked, -, h⟩ := run_js_bind_ok _ h
      cases h
    · cases h
  split at h
  · cases h
  · next hname =>
    obtain ⟨length, -, h⟩ := run_js_bind_ok _ h
    split at h
    · obtain ⟨asked, -, h⟩ := run_js_bind_ok _ h
      cases h
      rw [not_not] at hname
      exact ⟨asked, _, by rw [hname]; rfl⟩
    · cases h

theorem Made.holds (hhost : Generates realm crates) {key : NewKey} (h : Made realm crates key) :
    ∃ kind extractable asked bytes, key = KeyKind.key kind extractable asked (.str (.hex bytes)) ∧
      kind.Holds crates bytes := by
  cases h with
  | imported h =>
    obtain ⟨kind, asked, hkey, hholds⟩ := importKey_holds h
    exact ⟨kind, _, asked, _, hkey, hholds⟩
  | secret h =>
    obtain ⟨asked, before, hkey⟩ := generateKey_secret h
    exact ⟨_, _, asked, _, hkey, holds_aesGcm (hhost.random before 32)⟩
  | ofPair h hkey =>
    obtain ⟨curve, c, sign, verify, hmem, hparse, hprivate, hpublic⟩ := generateKey_pair h
    rcases hkey with rfl | rfl
    · exact ⟨_, _, sign, _, hprivate, .ecdsaPrivate curve _⟩
    · exact ⟨_, _, verify, _, hpublic, .ecdsaPublic curve c _ hmem hparse (hhost.point c)⟩

/-! ## out and in -/

/-- No operation looks at the flags of a key. -/
theorem perform_withFlags (op : KeyOp) (algorithm : Algorithm) (key : NewKey) (extractable : Bool)
    (asked : List JsVal) (data signature : Source) :
    perform realm op algorithm (key.withFlags extractable asked).view data signature =
      perform realm op algorithm key.view data signature := by
  cases op <;> rfl

theorem guarded_key (kind : KeyKind) (flag : Bool) (asked : List JsVal) (raw : JsVal) :
    (kind.key flag asked raw).view.guarded = false ↔
      flag = true ∧ ∀ curve, kind ≠ .ecdsaPrivate curve := by
  cases flag with
  | false => exact iff_of_false (by cases kind <;> exact Bool.true_eq_false.mp) (by simp)
  | true =>
    cases kind with
    | ecdsaPrivate curve =>
      exact iff_of_false (fun h => by cases h) fun h => h.2 curve rfl
    | _ => exact iff_of_true rfl ⟨rfl, by simp⟩

/-- A key is exported exactly if it is extractable and no private one, as its material. -/
theorem exportKey_eq {kind : KeyKind} {flag : Bool} {asked : List JsVal} {bytes raw : List UInt8}
    (trace trace' : List NativeCall) :
    run (exportKey realm rawFormat (kind.key flag asked (.str (.hex bytes))).view) trace =
        (.ok raw, trace') ↔
      flag = true ∧ (∀ curve, kind ≠ .ecdsaPrivate curve) ∧ raw = bytes ∧ trace' = trace := by
  cases hg : (kind.key flag asked (.str (.hex bytes))).view.guarded with
  | true =>
    refine iff_of_false (fun h => ?_) fun h => ?_
    · exact exportKey_guarded hg rawFormat trace raw (congrArg Prod.fst h)
    · have hopen := (guarded_key kind flag asked (.str (.hex bytes))).mpr ⟨h.1, h.2.1⟩
      rw [hg] at hopen
      cases hopen
  | false =>
    obtain ⟨hflag, hkind⟩ := (guarded_key kind flag asked _).mp hg
    have hrun : run (exportKey realm rawFormat (kind.key flag asked (.str (.hex bytes))).view) trace =
        (.ok (bytesOfHex (toHex bytes)), trace) := exportKey_unguarded rfl hg trace
    rw [hrun, bytesOfHex_toHex]
    constructor
    · intro h
      cases h
      exact ⟨hflag, hkind, rfl, rfl⟩
    · rintro ⟨-, -, rfl, rfl⟩
      rfl

variable (crates) in
/-- What was exported is imported as a key of the same kind, with the flags that are asked for. -/
theorem importKey_back {kind : KeyKind} {bytes : List UInt8} (hholds : kind.Holds crates bytes)
    (hasks : Asks realm algorithm kind) {asked : List JsVal} (husages : usages = .ok asked) :
    ∃ trace', run (importKey (hosted realm crates) rawFormat (fun _ => .bytes bytes) algorithm
      extractable usages) trace =
        (.ok (kind.key extractable.truthy asked (.str (.hex bytes))), trace') := by
  subst husages
  unfold importKey
  rw [run_js_ok trace (show rawFormat.text = .ok (.lit "raw") from rfl), if_neg (not_not_intro rfl)]
  cases hasks with
  | hmac hash hname hhash =>
    have hname : algorithmName (hosted realm crates) algorithm 0 = .ok (.lit "HMAC") := hname
    refine ⟨trace, ?_⟩
    rw [run_js_ok trace hname, if_neg (by decide), if_pos rfl, run_js_ok trace hhash]
    rfl
  | aesGcm length hname =>
    have hname : algorithmName (hosted realm crates) algorithm 0 = .ok (.lit "AES-GCM") := hname
    refine ⟨trace, ?_⟩
    cases hholds
    rw [run_js_ok trace hname, if_neg (by decide), if_neg (by decide), if_pos rfl]
    rfl
  | ecdsaPublic curve hname hcurve =>
    have hname : algorithmName (hosted realm crates) algorithm 0 = .ok (.lit "ECDSA") := hname
    cases hholds with
    | ecdsaPublic _ c _ hmem hparse hpoint =>
      obtain ⟨c', hparse', hcheck⟩ := check_answer crates hmem bytes
      obtain rfl : c' = c := Option.some.inj (hparse'.symm.trans hparse)
      rw [hpoint] at hcheck
      have hnative : ((hosted realm crates).native trace
          (.ecdsaCheck (.str curve) (.str (.hex bytes)))).run = _ := hcheck
      refine ⟨.ecdsaCheck (.str curve) (.str (.hex bytes)) :: trace, ?_⟩
      rw [run_js_ok trace hname, if_pos rfl, curveOf, bind_assoc, run_js_ok trace hcurve, if_pos hmem,
        pure_bind, run_js_ok trace (show bytesOfSource (.bytes bytes) = .ok bytes from rfl), run_bind,
        run_native_ok _ _ hnative]
      rfl

theorem type_private_iff (kind : KeyKind) :
    kind.type ≠ .lit "private" ↔ ∀ curve, kind ≠ .ecdsaPrivate curve := by
  cases kind with
  | ecdsaPrivate curve => exact iff_of_false (fun h => h rfl) fun h => h curve rfl
  | ecdsaPublic curve =>
    have hne : JsString.lit "public" ≠ .lit "private" := by decide
    exact iff_of_true hne (by simp)
  | _ =>
    have hne : JsString.lit "secret" ≠ .lit "private" := by decide
    exact iff_of_true hne (by simp)

/-- Of the keys that are no private ones, the algorithm says what kind they are of. -/
theorem Asks.congr {kind kind' : KeyKind} (h : Asks realm algorithm kind)
    (hsame : kind'.algorithm = kind.algorithm) (hkind : ∀ curve, kind' ≠ .ecdsaPrivate curve) :
    Asks realm algorithm kind' := by
  obtain ⟨hhead, htail⟩ := List.cons.inj hsame
  have hname : kind'.name = kind.name := JsVal.str.inj (congrArg Prod.snd hhead)
  have haes : JsString.lit "AES-GCM" ≠ .lit "HMAC" := by decide
  have hecdsa : JsString.lit "ECDSA" ≠ .lit "HMAC" := by decide
  have hcipher : JsString.lit "ECDSA" ≠ .lit "AES-GCM" := by decide
  cases h with
  | hmac hash hasked hhash =>
    cases kind' with
    | hmac hash' =>
      obtain rfl : hash' = realm.upper hash :=
        JsVal.str.inj (congrArg Prod.snd (List.cons.inj htail).1)
      exact .hmac hash hasked hhash
    | aesGcm length => exact absurd hname haes
    | ecdsaPublic curve => exact absurd hname hecdsa
    | ecdsaPrivate curve => exact absurd rfl (hkind curve)
  | aesGcm length hasked =>
    cases kind' with
    | hmac hash' => exact absurd hname haes.symm
    | aesGcm length' => exact .aesGcm length' hasked
    | ecdsaPublic curve => exact absurd hname hcipher
    | ecdsaPrivate curve => exact absurd rfl (hkind curve)
  | ecdsaPublic curve hasked hcurve =>
    cases kind' with
    | hmac hash' => exact absurd hname hecdsa.symm
    | aesGcm length => exact absurd hname hcipher.symm
    | ecdsaPublic curve' =>
      obtain rfl : curve' = curve := JsVal.str.inj (congrArg Prod.snd (List.cons.inj htail).1)
      exact .ecdsaPublic curve' hasked hcurve
    | ecdsaPrivate curve' => exact absurd rfl (hkind curve')

/-- The second key was imported from what the first was exported as, by an argument that asks for a key
of the same algorithm. -/
inductive Copied (realm : Realm) (crates : CryptoCrates) (key : NewKey) : NewKey → Prop
  | mk {raw : List UInt8} {kind : KeyKind} {algorithm : Algorithm} {extractable : JsVal}
      {asked : List JsVal} {key' : NewKey} {trace trace' later later' : List NativeCall}
      (hexport : run (exportKey realm rawFormat key.view) trace = (.ok raw, trace'))
      (hkind : key.algorithm = kind.algorithm) (hasks : Asks realm algorithm kind)
      (himport : run (importKey (hosted realm crates) rawFormat (fun _ => .bytes raw) algorithm
        extractable (.ok asked)) later = (.ok key', later')) : Copied realm crates key key'

theorem Copied.eq (hhost : Generates realm crates) {key key' : NewKey} (hkey : Made realm crates key)
    (h : Copied realm crates key key') : ∃ flag asked, key' = key.withFlags flag asked := by
  obtain ⟨kind, flag, flags, bytes, rfl, hholds⟩ := hkey.holds hhost
  cases h with
  | mk hexport hkind hasks himport =>
    obtain ⟨-, hpublic, rfl, -⟩ := (exportKey_eq _ _).mp hexport
    obtain ⟨later', hback⟩ := importKey_back crates hholds (hasks.congr hkind hpublic) rfl
    rw [himport] at hback
    cases hback
    exact ⟨_, _, rfl⟩

/-- A key that is extractable and no private one can be exported, and no other.  Whoever imports what
was exported, as a key of its algorithm, has a key that differs in its flags only, and with which every
operation does the same. -/
theorem restored (realm : Realm) (crates : CryptoCrates) (hhost : Generates realm crates)
    {key : NewKey} (hkey : Made realm crates key) (trace : List NativeCall) :
    ((∃ raw trace', run (exportKey realm rawFormat key.view) trace = (.ok raw, trace')) ↔
        key.extractable = true ∧ key.type ≠ .lit "private") ∧
      ∀ raw trace', run (exportKey realm rawFormat key.view) trace = (.ok raw, trace') →
        ∀ kind algorithm, key.algorithm = KeyKind.algorithm kind → Asks realm algorithm kind →
          ∀ extractable asked later, ∃ later',
            run (importKey (hosted realm crates) rawFormat (fun _ => .bytes raw) algorithm extractable
                (.ok asked)) later = (.ok (key.withFlags extractable.truthy asked), later') ∧
              ∀ op other data signature,
                perform (hosted realm crates) op other
                    (key.withFlags extractable.truthy asked).view data signature =
                  perform (hosted realm crates) op other key.view data signature := by
  obtain ⟨kind, flag, flags, bytes, rfl, hholds⟩ := hkey.holds hhost
  refine ⟨⟨?_, ?_⟩, fun raw trace' hexport kind' algorithm hsame hasks extractable asked later => ?_⟩
  · rintro ⟨raw, trace', h⟩
    obtain ⟨hflag, hkind, -⟩ := (exportKey_eq trace trace').mp h
    exact ⟨hflag, (type_private_iff kind).mpr hkind⟩
  · rintro ⟨hflag, htype⟩
    exact ⟨bytes, trace,
      (exportKey_eq trace trace).mpr ⟨hflag, (type_private_iff kind).mp htype, rfl, rfl⟩⟩
  · obtain ⟨-, hpublic, rfl, -⟩ := (exportKey_eq trace trace').mp hexport
    obtain ⟨later', himport⟩ := importKey_back crates hholds (hasks.congr hsame hpublic) rfl
    exact ⟨later', himport,
      fun op other data signature => perform_withFlags op other _ _ _ data signature⟩

/-! ## secret keys -/

/-- what a call of AES-GCM with a key of this material gives -/
def cipherOutcome (crates : CryptoCrates) (op : AesOp) (bytes iv data : List UInt8) :
    Except Fault (List UInt8) :=
  if bytes.length = 32 ∧ iv.length = 12 then Sealing.outcomeOf (crates.aes.apply op bytes iv data)
  else .error (.exception (txt "DataError")
    (.lit "AES-GCM here takes a 256 bit key and a 12 byte iv"))

theorem run_call (call : SealCall) {bytes iv data : List UInt8}
    (hname : algorithmName realm call.algorithm 0 = .ok (.lit "AES-GCM"))
    (hraw : call.raw = .hex bytes) (hiv : call.algorithm.iv = .ok (.bytes iv))
    (hdata : call.data = .bytes data) (trace : List NativeCall) :
    (run (aes (hosted realm crates) call.op call.algorithm call.key call.data) trace).1 =
      cipherOutcome crates call.op bytes iv data := by
  have hname : algorithmName (hosted realm crates) call.algorithm 0 = .ok (.lit "AES-GCM") := hname
  have hmaterial : NovaRuntime.fromHex (decodeLossy call.raw.units) = some (some bytes) := by
    rw [hraw]
    exact Option.join_eq_some_iff.mp (hexBytes_hex bytes)
  have hanswer : ((hosted realm crates).native trace (Sealing.SealCall.native call iv data)).run =
      some (.ok (if bytes.length = 32 ∧ iv.length = 12 then
        cipherAnswer (crates.aes.apply call.op bytes iv data) else .null)) := by
    refine (nativeAesGcm_eq crates call.op call.raw iv data).trans ?_
    rw [hmaterial, Option.map_some, Option.elim_some]
  rw [Sealing.aes_eq hname hiv hdata, run_bind, run_native_ok _ trace hanswer, cipherOutcome]
  by_cases hsize : bytes.length = 32 ∧ iv.length = 12
  · rw [if_pos hsize, if_pos hsize]
    exact congrArg Prod.fst (Sealing.run_settle _ _)
  · rw [if_neg hsize, if_neg hsize]
    rfl

theorem run_aes {op : AesOp} {key : CryptoKey} {bytes iv data : List UInt8}
    (hname : algorithmName realm algorithm 0 = .ok (.lit "AES-GCM"))
    (hraw : key.raw = .str (.hex bytes)) (hiv : algorithm.iv = .ok (.bytes iv))
    (trace : List NativeCall) :
    (run (aes (hosted realm crates) op algorithm key (.bytes data)) trace).1 =
      cipherOutcome crates op bytes iv data :=
  run_call ⟨op, algorithm, key, .hex bytes, hraw, .bytes data⟩ hname rfl hiv rfl trace

theorem aes_opens (hopens : crates.aes.Opens) {key key' : CryptoKey} {bytes iv p c : List UInt8}
    {algorithm' : Algorithm} (hraw : key.raw = .str (.hex bytes))
    (hraw' : key'.raw = .str (.hex bytes))
    (hname : algorithmName realm algorithm 0 = .ok (.lit "AES-GCM"))
    (hiv : algorithm.iv = .ok (.bytes iv))
    (hname' : algorithmName realm algorithm' 0 = .ok (.lit "AES-GCM"))
    (hiv' : algorithm'.iv = .ok (.bytes iv))
    (h : (run (aes (hosted realm crates) .encrypt algorithm key (.bytes p)) trace).1 = .ok c)
    (later : List NativeCall) :
    (run (aes (hosted realm crates) .decrypt algorithm' key' (.bytes c)) later).1 = .ok p := by
  rw [run_aes hname hraw hiv, cipherOutcome] at h
  split at h
  · next hsize =>
    have hsealed : crates.aes.encrypt bytes iv ⟨p, []⟩ = some c := Sealing.outcomeOf_ok.mp h
    rw [run_aes hname' hraw' hiv', cipherOutcome, if_pos hsize]
    exact Sealing.outcomeOf_ok.mpr (hopens _ _ _ _ hsealed)
  · cases h

/-- One of two keys seals and the other opens, or one signs and the other verifies, in both directions,
when one of them is a copy of the other. -/
theorem shared_secret (realm : Realm) (crates : CryptoCrates) (hhmac : crates.HmacVerifies)
    (hopens : crates.aes.Opens) (hhost : Generates realm crates) {key key' sender receiver : NewKey}
    (hkey : Made realm crates key) (hcopy : Copied realm crates key key')
    (hsender : sender = key ∨ sender = key') (hreceiver : receiver = key ∨ receiver = key')
    (trace later : List NativeCall) :
    (∀ algorithm algorithm' iv p c, algorithmName realm algorithm 0 = .ok (.lit "AES-GCM") →
        algorithm.iv = .ok (.bytes iv) → algorithmName realm algorithm' 0 = .ok (.lit "AES-GCM") →
        algorithm'.iv = .ok (.bytes iv) →
        (run (aes (hosted realm crates) .encrypt algorithm sender.view (.bytes p)) trace).1 = .ok c →
        (run (aes (hosted realm crates) .decrypt algorithm' receiver.view (.bytes c)) later).1 =
          .ok p) ∧
      ∀ algorithm data tag, requested realm .sign algorithm = some (.lit "HMAC") →
        (run (sign (hosted realm crates) algorithm sender.view data) trace).1 = .ok tag →
        (run (verify (hosted realm crates) algorithm receiver.view (.bytes tag) data) later).1 =
          .ok true := by
  obtain ⟨kind, flag, flags, bytes, hmade, -⟩ := hkey.holds hhost
  obtain ⟨flag', asked, hcopied⟩ := hcopy.eq hhost hkey
  have hraw : ∀ k, k = key ∨ k = key' → k.view.raw = .str (.hex bytes) ∧
      k.view.algorithm = key.view.algorithm := by
    rintro k (rfl | rfl)
    · exact ⟨by rw [hmade]; rfl, rfl⟩
    · exact ⟨by rw [hcopied, hmade]; rfl, by rw [hcopied]; rfl⟩
  obtain ⟨hraw₁, halgorithm₁⟩ := hraw sender hsender
  obtain ⟨hraw₂, halgorithm₂⟩ := hraw receiver hreceiver
  refine ⟨fun algorithm algorithm' iv p c hname hiv hname' hiv' h => ?_,
    fun algorithm data tag hname h => ?_⟩
  · exact aes_opens hopens hraw₁ hraw₂ hname hiv hname' hiv' h later
  · have halgorithm : receiver.view.algorithm = sender.view.algorithm :=
      halgorithm₂.trans halgorithm₁.symm
    exact verify_tag hhmac h hname (congrFun halgorithm _) (hraw₂.trans hraw₁.symm) later

/-! ## pairs -/

/-- what ECDSA asks the host with, for a key of a curve -/
theorem asked_of_kind {kind : KeyKind} {wanted : String} {curve : JsString} {hash : Hash}
    {bytes : List UInt8} {flag : Bool} {asked : List JsVal} (hmem : curve ∈ curves)
    (hkind : kind = .ecdsaPrivate curve ∧ wanted = "private" ∨
      kind = .ecdsaPublic curve ∧ wanted = "public")
    (hhash : ∃ name, ecdsaHash realm algorithm = .ok name ∧ Hash.parse name.units = some hash) :
    ecdsaAsked realm algorithm (kind.key flag asked (.str (.hex bytes))).view wanted =
      some (hash, curve.units, toHex bytes) := by
  obtain ⟨c, -, htext, -⟩ := generate_answer CryptoCrates.inert hmem
  have hmaterial : argText (.str (.hex bytes)) = some (toHex bytes) := argText_hex bytes
  have hcheck : ∀ type : JsString, (JsVal.isText (.lit "ECDSA") (.str (.lit "ECDSA")) &&
      JsVal.isText type (.str type)) = true := by
    intro type
    have htype : JsVal.isText type (.str type) = true := by
      unfold JsVal.isText
      exact decide_eq_true rfl
    rw [htype]
    decide
  rcases hkind with ⟨rfl, rfl⟩ | ⟨rfl, rfl⟩
  · exact ecdsaAsked_eq_some.mpr
      ⟨⟨.str (.lit "ECDSA"), rfl, hcheck (.lit "private")⟩, hhash, htext, hmaterial⟩
  · exact ecdsaAsked_eq_some.mpr
      ⟨⟨.str (.lit "ECDSA"), rfl, hcheck (.lit "public")⟩, hhash, htext, hmaterial⟩

/-- A private key signs what the crate signs with it, and fails on the null where that refuses. -/
theorem sign_pair (hnull : ∃ e, realm.fromOther .null = .error e) {curve : JsString} {c : Curve}
    {hash : Hash} {flag : Bool} {asked : List JsVal} {k : List UInt8} (bytes : List UInt8)
    (hmem : curve ∈ curves) (hparse : Curve.parse curve.units = some c)
    (hname : requested realm .sign algorithm = some (.lit "ECDSA"))
    (hhash : ∃ name, ecdsaHash realm algorithm = .ok name ∧ Hash.parse name.units = some hash)
    (tag : List UInt8) :
    (run (sign (hosted realm crates) algorithm
        ((KeyKind.ecdsaPrivate curve).key flag asked (.str (.hex k))).view (.bytes bytes)) trace).1 =
        .ok tag ↔ (crates.ecdsa c).sign k (crates.digest hash bytes) = some tag := by
  have hasked : ecdsaAsked realm algorithm
      ((KeyKind.ecdsaPrivate curve).key flag asked (.str (.hex k))).view "private" =
        some (hash, curve.units, toHex k) := asked_of_kind hmem (.inl ⟨rfl, rfl⟩) hhash
  have hends : Ends crates _ trace _ (settleSignature realm) := sign_ecdsa bytes hname hasked
  have hanswer : crates.signAnswer curve.units (toHex k) (crates.digest hash bytes) =
      some (((crates.ecdsa c).sign k (crates.digest hash bytes)).elim .null fun signature =>
        .str (.hex signature)) := by
    rw [CryptoCrates.signAnswer, hparse, Option.elim_some, fromHex_toHex, Option.map_some,
      Option.elim_some]
  rw [hanswer] at hends
  rw [Gives.result hends]
  cases (crates.ecdsa c).sign k (crates.digest hash bytes) with
  | none =>
    obtain ⟨e, hnull⟩ := hnull
    refine iff_of_false (fun h => ?_) (by simp)
    have hfails : settleSignature realm .null = .error (.thrown e) := by
      show (realm.fromOther .null).mapError Fault.thrown = _
      rw [hnull]
      rfl
    rw [Option.elim_none, hfails] at h
    cases h
  | some signature =>
    have hback : settleSignature realm (.str (.hex signature)) = .ok signature :=
      congrArg Except.ok (bytesOfHex_toHex signature)
    rw [Option.elim_some, hback]
    constructor
    · intro h
      cases h
      rfl
    · intro h
      cases h
      rfl

/-- The private key of a generated pair is not exported.  It signs what the crate signs with it, and the
signatures verify under every copy of the public key. -/
theorem signed_by_pair (realm : Realm) (crates : CryptoCrates)
    {pair : Curve → List UInt8 → List UInt8 → Prop} (hcrates : crates.EcdsaVerifies pair)
    (hhost : Generates realm crates)
    (hpair : ∀ c, pair c (crates.ecdsa c).generate.1 (crates.ecdsa c).generate.2)
    (hnull : ∃ e, realm.fromOther .null = .error e) {asking : Algorithm} {extractable : JsVal}
    {usages : Js (List JsVal)} {privateKey publicKey key' : NewKey}
    {shared : privateKey.algorithm = publicKey.algorithm} {before before' : List NativeCall}
    (hgenerate : run (generateKey (hosted realm crates) asking extractable usages) before =
      (.ok (.pair privateKey publicKey shared), before'))
    (hcopy : Copied realm crates publicKey key') (trace : List NativeCall) :
    (∀ format raw, (run (exportKey realm format privateKey.view) trace).1 ≠ .ok raw) ∧
      ∃ curve c, publicKey.algorithm = (KeyKind.ecdsaPublic curve).algorithm ∧
        Curve.parse curve.units = some c ∧ ∀ algorithm hash,
          requested realm .sign algorithm = some (.lit "ECDSA") →
          (∃ name, ecdsaHash realm algorithm = .ok name ∧ Hash.parse name.units = some hash) →
          ∀ bytes tag, ((run (sign (hosted realm crates) algorithm privateKey.view (.bytes bytes))
              trace).1 = .ok tag ↔
            (crates.ecdsa c).sign (crates.ecdsa c).generate.1 (crates.digest hash bytes) =
              some tag) ∧
            ((run (sign (hosted realm crates) algorithm privateKey.view (.bytes bytes))
              trace).1 = .ok tag →
              ∀ later, (run (verify (hosted realm crates) algorithm key'.view (.bytes tag)
                (.bytes bytes)) later).1 = .ok true) := by
  obtain ⟨curve, c, signs, verifies, hmem, hparse, hprivate, hpublic⟩ := generateKey_pair hgenerate
  refine ⟨fun format raw => ?_, curve, c, by rw [hpublic]; rfl, hparse,
    fun algorithm hash hname hhash bytes tag => ?_⟩
  · refine exportKey_guarded ?_ format trace raw
    by_contra hopen
    rw [hprivate] at hopen
    have hkind := ((guarded_key _ _ _ _).mp (Bool.not_eq_true _ ▸ hopen)).2
    exact hkind curve rfl
  · have hsigns : (run (sign (hosted realm crates) algorithm privateKey.view (.bytes bytes)) trace).1 =
        .ok tag ↔ (crates.ecdsa c).sign (crates.ecdsa c).generate.1 (crates.digest hash bytes) =
          some tag := by
      rw [hprivate]
      exact sign_pair hnull bytes hmem hparse hname hhash tag
    refine ⟨hsigns, fun htag later => ?_⟩
    obtain ⟨flag, asked, rfl⟩ := hcopy.eq hhost (.ofPair hgenerate (.inr rfl))
    rw [hpublic]
    have hasked : ecdsaAsked realm algorithm ((KeyKind.ecdsaPublic curve).key flag asked
        (.str (.hex (crates.ecdsa c).generate.2))).view "public" =
          some (hash, curve.units, toHex (crates.ecdsa c).generate.2) :=
      asked_of_kind hmem (.inr ⟨rfl, rfl⟩) hhash
    obtain ⟨hpoint, hsignature, hverify⟩ := hcrates _ _ _ _ _ (hpair c) (hsigns.mp htag)
    refine (verify_ecdsa bytes tag hname hasked).accepts ?_
    rw [CryptoCrates.verifyAnswer, hparse, Option.elim_some, fromHex_toHex, Option.map_some,
      Option.elim_some, if_pos hpoint, hsignature, hverify]
    rfl

end

/-! ## at known keys -/

/-- the crates of the known tag and signature, and the tag of AES-256-GCM for nothing under zeros -/
def knownCrates : CryptoCrates :=
  { sampleCrates with
    aes := ⟨fun _ _ payload => some (payload.msg ++ Sealing.zeroTag),
      fun _ _ payload => some (payload.msg.take (payload.msg.length - 16))⟩ }

theorem knownCrates_opens : knownCrates.aes.Opens := by
  intro key nonce payload ct h
  obtain rfl : payload.msg ++ Sealing.zeroTag = ct := Option.some.inj h
  show some ((payload.msg ++ Sealing.zeroTag).take _) = some payload.msg
  have hlength : (payload.msg ++ Sealing.zeroTag).length - 16 = payload.msg.length := by
    rw [List.length_append]
    exact Nat.add_sub_cancel _ 16
  rw [hlength, List.take_left]

theorem knownCrates_generates : Generates (.ascii knownCrates) knownCrates where
  random _ _ := List.length_replicate
  point _ := decide_eq_true (p := knownPoint = knownPoint) rfl

def zeroAlgorithm : Algorithm :=
  .plain (.lit "AES-GCM") .undefined (.bytes (List.replicate 12 0)) none

def zeroKey : NewKey := (KeyKind.aesGcm 256).key true [] (.str (.hex (List.replicate 32 0)))

theorem zeroKey_made : Made (.ascii knownCrates) knownCrates zeroKey := by
  have h : run (importKey (hosted (.ascii knownCrates) knownCrates) rawFormat
      (fun _ => .bytes (List.replicate 32 0)) zeroAlgorithm (.bool true) (.ok [])) [] =
        (.ok zeroKey, []) := rfl
  exact .imported h

theorem zeroKey_exported : run (exportKey (.ascii knownCrates) rawFormat zeroKey.view) [] =
    (.ok (List.replicate 32 0), []) :=
  (exportKey_eq [] []).mpr ⟨rfl, fun curve h => (by cases h), rfl, rfl⟩

theorem restored_zero : ∃ later',
    run (importKey (hosted (.ascii knownCrates) knownCrates) rawFormat
      (fun _ => .bytes (List.replicate 32 0)) zeroAlgorithm (.bool false) (.ok [])) [] =
        (.ok (zeroKey.withFlags false []), later') := by
  obtain ⟨later', himport, -⟩ :=
    (restored (.ascii knownCrates) knownCrates knownCrates_generates zeroKey_made []).2 _ _
      zeroKey_exported (.aesGcm 256) zeroAlgorithm rfl (.aesGcm 256 rfl) (.bool false) [] []
  exact ⟨later', himport⟩

theorem zeroKey_copied :
    Copied (.ascii knownCrates) knownCrates zeroKey (zeroKey.withFlags false []) := by
  have himport : run (importKey (hosted (.ascii knownCrates) knownCrates) rawFormat
      (fun _ => .bytes (List.replicate 32 0)) zeroAlgorithm (.bool false) (.ok [])) [] =
        (.ok (zeroKey.withFlags false []), []) := rfl
  exact .mk zeroKey_exported rfl (.aesGcm 256 rfl) himport

theorem shared_secret_zero : (run (aes (hosted (.ascii knownCrates) knownCrates) .decrypt zeroAlgorithm
    (zeroKey.withFlags false []).view (.bytes Sealing.zeroTag)) []).1 = .ok [] := by
  have hsealed : (run (aes (hosted (.ascii knownCrates) knownCrates) .encrypt zeroAlgorithm
      zeroKey.view (.bytes [])) []).1 = .ok Sealing.zeroTag := (run_aes rfl rfl rfl []).trans rfl
  exact (shared_secret (.ascii knownCrates) knownCrates sampleCrates_hmac knownCrates_opens
    knownCrates_generates zeroKey_made zeroKey_copied (.inl rfl) (.inr rfl) [] []).1
      zeroAlgorithm zeroAlgorithm (List.replicate 12 0) [] Sealing.zeroTag rfl rfl rfl rfl hsealed

/-- an argument for ECDSA over P-256 and SHA-256 -/
def ecdsaAlgorithm : Algorithm :=
  { Algorithm.plain (.lit "ECDSA") (.str (.lit "SHA-256")) .other none with
    namedCurve := .ok (.str (.lit "P-256")) }

/-- the keys that are generated for it -/
def knownPrivate : NewKey :=
  (KeyKind.ecdsaPrivate (.lit "P-256")).key false [] (.str (.hex knownScalar))
def knownPublic : NewKey :=
  (KeyKind.ecdsaPublic (.lit "P-256")).key true [] (.str (.hex knownPoint))

set_option maxRecDepth 4096 in
theorem signed_by_pair_known :
    (run (sign (hosted (strictRealm knownCrates) knownCrates) ecdsaAlgorithm knownPrivate.view
      (.bytes knownText)) []).1 = .ok knownSignature ∧
    (run (verify (hosted (strictRealm knownCrates) knownCrates) ecdsaAlgorithm
      (knownPublic.withFlags true []).view (.bytes knownSignature) (.bytes knownText)) []).1 =
        .ok true := by
  have hhost : Generates (strictRealm knownCrates) knownCrates :=
    ⟨fun _ _ => List.length_replicate, fun _ => rfl⟩
  obtain ⟨trace, hgenerate⟩ : ∃ trace,
      run (generateKey (hosted (strictRealm knownCrates) knownCrates) ecdsaAlgorithm (.bool false)
        (.ok [])) [] = (.ok (.pair knownPrivate knownPublic rfl), trace) := ⟨_, rfl⟩
  have hexport : run (exportKey (strictRealm knownCrates) rawFormat knownPublic.view) [] =
      (.ok knownPoint, []) := (exportKey_eq [] []).mpr ⟨rfl, fun curve h => (by cases h), rfl, rfl⟩
  have hasks : Asks (strictRealm knownCrates) ecdsaAlgorithm (.ecdsaPublic (.lit "P-256")) :=
    .ecdsaPublic (.lit "P-256") rfl rfl
  obtain ⟨later', himport⟩ : ∃ later',
      run (importKey (hosted (strictRealm knownCrates) knownCrates) rawFormat
        (fun _ => .bytes knownPoint) ecdsaAlgorithm (.bool true) (.ok [])) [] =
          (.ok (knownPublic.withFlags true []), later') := ⟨_, rfl⟩
  obtain ⟨-, curve, c, hcurve, hparse, hsigns⟩ :=
    signed_by_pair (strictRealm knownCrates) knownCrates sampleCrates_ecdsa hhost
      (fun _ => ⟨rfl, rfl⟩) ⟨_, rfl⟩ hgenerate
      (.mk hexport rfl hasks himport) []
  obtain rfl : JsString.lit "P-256" = curve :=
    JsVal.str.inj (congrArg Prod.snd (List.cons.inj (List.cons.inj hcurve).2).1)
  obtain rfl : Curve.p256 = c := Option.some.inj hparse
  obtain ⟨hsigned, hverify⟩ :=
    hsigns ecdsaAlgorithm .sha256 rfl ⟨.lit "SHA-256", rfl, rfl⟩ knownText knownSignature
  have htag := hsigned.mpr (by decide)
  exact ⟨htag, hverify htag []⟩

end Subtle

end NovaRuntime
