import NovaRuntime.Crypto.Signing
import Mathlib.Data.List.TakeWhile

/-!
# What is signed, and what verifies

* `Matching`   the key that verifies what a key signs;
* `Agree`      what is signed verifies, and what the host cannot use is refused;
* `Usable`     the host can use what it is asked with;
* `agree_iff_usable`   `sign` and `verify` agree exactly then.
-/

namespace NovaRuntime
open Lib

/-- The key that verifies what a key signs: for HMAC the same hash and material, for ECDSA a public key
of the scalar. -/
inductive Matching (pair : Curve → List UInt8 → List UInt8 → Prop) :
    JsString → CryptoKey → CryptoKey → Prop where
  | hmac {key key' : CryptoKey} (hhash : key'.algorithm (txt "hash") = key.algorithm (txt "hash"))
      (hraw : key'.raw = key.raw) : Matching pair (.lit "HMAC") key key'
  | ecdsa {key key' : CryptoKey} {text : Text} {curve : Curve} {scalar point : List UInt8}
      (hname : key'.algorithm (txt "name") = .ok (.str (.lit "ECDSA")))
      (htype : key'.type = .str (.lit "public"))
      (hcurve : key.curve = some text) (hcurve' : key'.curve = some text)
      (hparse : Curve.parse text = some curve)
      (hscalar : key.bytes = some scalar) (hpoint : key'.bytes = some point)
      (hpair : pair curve scalar point) : Matching pair (.lit "ECDSA") key key'

namespace Subtle
section
variable (realm : Realm) (crates : CryptoCrates) (algorithm : Algorithm) (key : CryptoKey)
  (data signature : Source) (trace : List NativeCall) {α : Type}

/-- the host answers this in an operation -/
def Answered (m : Subtle α) (v : JsVal) : Prop :=
  ∃ new call, (run m trace).2 = new ++ trace ∧ call ∈ new ∧
    (crates.answer call).run = some (.ok v)

/-- where the host answers null, the operation rejects with a `DOMException` -/
def Refuses (m : Subtle α) : Prop :=
  Answered crates trace m .null → ∃ name message, (run m trace).1 = .error (.exception name message)

/-- `sign` and `verify` agree on what they support -/
structure Agree (pair : Curve → List UInt8 → List UInt8 → Prop) : Prop where
  /-- what is signed verifies -/
  signed {tag : List UInt8} {name : JsString} {key' : CryptoKey} (later : List NativeCall) :
    (run (sign (hosted realm crates) algorithm key data) trace).1 = .ok tag →
    requested realm .sign algorithm = some name → Matching pair name key key' →
      (run (verify (hosted realm crates) algorithm key' (.bytes tag) data) later).1 = .ok true
  /-- only a signature that does not hold is denied -/
  denied : (run (verify (hosted realm crates) algorithm key signature data) trace).1 = .ok false →
    Answered crates trace (verify (hosted realm crates) algorithm key signature data) (.bool false)
  signRefuses : Refuses crates trace (sign (hosted realm crates) algorithm key data)
  verifyRefuses : Refuses crates trace (verify (hosted realm crates) algorithm key signature data)

/-- The host can use what it is asked with, but for `sign` with HMAC, which looks at the answer. -/
structure Usable : Prop where
  hmac {hash material : Text} : requested realm .verify algorithm = some (.lit "HMAC") →
    hmacAsked realm algorithm key = some (hash, material) → data ≠ .other → signature ≠ .other →
      ReadsMaterial material fun _ => (Hash.parse hash).isSome
  ecdsaSign {hash : Hash} {curve material : Text} {bytes : List UInt8} :
    requested realm .sign algorithm = some (.lit "ECDSA") →
    ecdsaAsked realm algorithm key "private" = some (hash, curve, material) → data = .bytes bytes →
      ∃ c, Curve.parse curve = some c ∧
        ReadsMaterial material fun k => ((crates.ecdsa c).sign k (crates.digest hash bytes)).isSome
  ecdsaVerify {hash : Hash} {curve material : Text} :
    requested realm .verify algorithm = some (.lit "ECDSA") →
    ecdsaAsked realm algorithm key "public" = some (hash, curve, material) → data ≠ .other →
    signature ≠ .other →
      ∃ c, Curve.parse curve = some c ∧ ReadsMaterial material fun k => (crates.ecdsa c).isPoint k = true

end

/-! ## agreement -/

section agreement
variable {realm : Realm} {crates : CryptoCrates}
  {pair : Curve → List UInt8 → List UInt8 → Prop} {algorithm : Algorithm} {key key' : CryptoKey}
  {data signature : Source} {trace : List NativeCall} {α : Type}

theorem Stops.not_answered {m : Subtle α} (h : Stops crates m trace) :
    ¬Answered crates trace m .null := by
  obtain ⟨fault, new, hrun, hnew⟩ := h
  rintro ⟨new', call, hnew', hcall, hnull⟩
  rw [hrun] at hnew'
  obtain rfl := List.append_cancel_right hnew'
  exact hnew call hcall hnull

theorem Gives.answered {m : Subtle α} {v : JsVal} {result : Except Fault α}
    (h : Gives crates m trace v result) : Answered crates trace m v := by
  obtain ⟨new, call, hrun, hv, -⟩ := h
  exact ⟨call :: new, call, by rw [hrun], List.mem_cons_self, hv⟩

theorem Gives.eq_null {m : Subtle α} {v : JsVal} {result : Except Fault α}
    (h : Gives crates m trace v result) (hnull : Answered crates trace m .null) : v = .null := by
  obtain ⟨new, call, hrun, hv, hnew⟩ := h
  obtain ⟨new', call', hnew', hcall', hnull⟩ := hnull
  rw [hrun] at hnew'
  obtain rfl := List.append_cancel_right hnew'
  rcases List.mem_cons.mp hcall' with rfl | hcall'
  · rw [hv] at hnull
    exact Except.ok.inj (Option.some.inj hnull)
  · exact absurd hnull (hnew call' hcall')

theorem Ends.not_null {m : Subtle α} {x : Option JsVal} {settle : JsVal → Except Fault α}
    (h : Ends crates m trace x settle) (hx : x ≠ some .null) : ¬Answered crates trace m .null := by
  cases x with
  | none => exact Stops.not_answered h
  | some v => exact fun hnull => hx (congrArg some (Gives.eq_null h hnull))

theorem Ends.ok {m : Subtle α} {x : Option JsVal} {settle : JsVal → Except Fault α} {a : α}
    (h : Ends crates m trace x settle) (hok : (run m trace).1 = .ok a) :
    ∃ v, x = some v ∧ settle v = .ok a ∧ Answered crates trace m v := by
  cases x with
  | none => exact absurd hok (Stops.not_ok h a)
  | some v => exact ⟨v, rfl, (Gives.result h).symm.trans hok, Gives.answered h⟩

theorem Stops.refuses {m : Subtle α} (h : Stops crates m trace) : Refuses crates trace m :=
  fun hnull => absurd hnull h.not_answered

/-- The null of HMAC is refused by `sign`. -/
theorem Ends.tag_refuses {m : Subtle (List UInt8)} {x : Option JsVal}
    (h : Ends crates m trace x (settleTag realm)) : Refuses crates trace m := by
  intro hnull
  by_cases hx : x = some .null
  · subst hx
    exact ⟨_, _, Gives.result h⟩
  · exact absurd hnull (h.not_null hx)

/-- The null of ECDSA is not: `sign` fails on it. -/
theorem Ends.signature_refuses {m : Subtle (List UInt8)} {x : Option JsVal}
    (h : Ends crates m trace x (settleSignature realm)) : Refuses crates trace m ↔ x ≠ some .null := by
  refine ⟨?_, fun hx hnull => absurd hnull (h.not_null hx)⟩
  rintro hrefuses rfl
  obtain ⟨name, message, hrun⟩ := hrefuses (Gives.answered h)
  rw [Gives.result h] at hrun
  unfold settleSignature at hrun
  cases hnull : fromHex realm .null with
  | error e =>
    rw [hnull] at hrun
    cases hrun
  | ok bytes =>
    rw [hnull] at hrun
    cases hrun

/-- `verify` denies only what the host denies, and refuses a null answer -/
def Denies (crates : CryptoCrates) (trace : List NativeCall) (m : Subtle Bool) : Prop :=
  ((run m trace).1 = .ok false → Answered crates trace m (.bool false)) ∧ Refuses crates trace m

/-- `verify` resolves false on null, and else denies what the host denies. -/
theorem Ends.flag_refuses {m : Subtle Bool} {x : Option JsVal}
    (h : Ends crates m trace x settleFlag)
    (hflag : ∀ v, x = some v → v = .null ∨ ∃ held, v = .bool held) :
    Denies crates trace m ↔ x ≠ some .null := by
  constructor
  · rintro ⟨-, hrefuses⟩ rfl
    obtain ⟨name, message, hrun⟩ := hrefuses (Gives.answered h)
    rw [Gives.result h] at hrun
    cases hrun
  · refine fun hx => ⟨fun hrun => ?_, fun hnull => absurd hnull (h.not_null hx)⟩
    obtain ⟨v, rfl, hsettle, hanswered⟩ := h.ok hrun
    rcases hflag v rfl with rfl | ⟨held, rfl⟩
    · exact absurd rfl hx
    · have hheld : held = false := Except.ok.inj hsettle
      rw [← hheld]
      exact hanswered

theorem asked_cases {β : Type} (asked : Option β) (data : Source) :
    (asked = none ∨ data = .other) ∨ ∃ a bytes, asked = some a ∧ data = .bytes bytes := by
  cases asked with
  | none => exact .inl (.inl rfl)
  | some a =>
    cases data with
    | other => exact .inl (.inr rfl)
    | bytes bytes => exact .inr ⟨a, bytes, rfl, rfl⟩

theorem ne_ecdsa {name : Option JsString} (h : name = some (.lit "HMAC")) :
    name ≠ some (.lit "ECDSA") := by
  rw [h]
  decide

theorem ne_hmac {name : Option JsString} (h : name = some (.lit "ECDSA")) :
    name ≠ some (.lit "HMAC") := by
  rw [h]
  decide

theorem sign_refuses_iff :
    Refuses crates trace (sign (hosted realm crates) algorithm key data) ↔
      ∀ hash curve material bytes, requested realm .sign algorithm = some (.lit "ECDSA") →
        ecdsaAsked realm algorithm key "private" = some (hash, curve, material) →
        data = .bytes bytes → ∃ c, Curve.parse curve = some c ∧
          ReadsMaterial material fun k =>
            ((crates.ecdsa c).sign k (crates.digest hash bytes)).isSome := by
  by_cases hecdsa : requested realm .sign algorithm = some (.lit "ECDSA")
  · rcases asked_cases (ecdsaAsked realm algorithm key "private") data with
      hnone | ⟨⟨hash, curve, material⟩, bytes, hasked, rfl⟩
    · refine iff_of_true (sign_stops (fun h => absurd h (ne_hmac hecdsa)) fun _ => hnone).refuses ?_
      intro hash curve material bytes _ hasked hdata
      have hgiven : data ≠ .other := by
        rw [hdata]
        nofun
      exact absurd (hasked.symm.trans (hnone.resolve_right hgiven)) (Option.some_ne_none _)
    · rw [(sign_ecdsa bytes hecdsa hasked).signature_refuses, crates.signAnswer_ne_null]
      refine ⟨fun h hash' curve' material' bytes' _ hasked' hdata => ?_, fun h => ?_⟩
      · cases hasked.symm.trans hasked'
        cases hdata
        exact h
      · exact h hash curve material bytes hecdsa hasked rfl
  · refine iff_of_true ?_ fun _ _ _ _ h => absurd h hecdsa
    by_cases hhmac : requested realm .sign algorithm = some (.lit "HMAC")
    · rcases asked_cases (hmacAsked realm algorithm key) data with
        hnone | ⟨⟨hash, material⟩, bytes, hasked, rfl⟩
      · exact (sign_stops (fun _ => hnone) fun h => absurd h hecdsa).refuses
      · exact (sign_hmac bytes hhmac hasked).tag_refuses
    · exact (sign_stops (fun h => absurd h hhmac) fun h => absurd h hecdsa).refuses

theorem Stops.denies {m : Subtle Bool} (h : Stops crates m trace) : Denies crates trace m :=
  ⟨fun hrun => absurd hrun (h.not_ok false), h.refuses⟩

theorem verify_hmac_iff (hname : requested realm .verify algorithm = some (.lit "HMAC")) :
    Denies crates trace (verify (hosted realm crates) algorithm key signature data) ↔
      ∀ hash material, hmacAsked realm algorithm key = some (hash, material) → data ≠ .other →
        signature ≠ .other → ReadsMaterial material fun _ => (Hash.parse hash).isSome := by
  cases signature with
  | other => exact iff_of_true verify_other.denies fun _ _ _ _ h => absurd rfl h
  | bytes tag =>
    rcases asked_cases (hmacAsked realm algorithm key) data with
      hnone | ⟨⟨hash, material⟩, bytes, hasked, rfl⟩
    · refine iff_of_true (verify_stops (fun _ => hnone) fun h => absurd h (ne_ecdsa hname)).denies ?_
      intro hash material hasked hdata
      exact absurd (hasked.symm.trans (hnone.resolve_right hdata)) (Option.some_ne_none _)
    · have hends : Ends crates (verify (hosted realm crates) algorithm key (.bytes tag) (.bytes bytes))
        trace (crates.hmacAnswer hash material bytes (some tag)) settleFlag :=
        verify_hmac bytes tag hname hasked
      rw [hends.flag_refuses fun v hv => crates.hmacAnswer_verify hv,
        crates.hmacAnswer_ne_null]
      refine ⟨fun h hash' material' hasked' _ _ => ?_, fun h => h hash material hasked nofun nofun⟩
      cases hasked.symm.trans hasked'
      exact h

theorem verify_ecdsa_iff (hname : requested realm .verify algorithm = some (.lit "ECDSA")) :
    Denies crates trace (verify (hosted realm crates) algorithm key signature data) ↔
      ∀ hash curve material, ecdsaAsked realm algorithm key "public" = some (hash, curve, material) →
        data ≠ .other → signature ≠ .other → ∃ c, Curve.parse curve = some c ∧
          ReadsMaterial material fun k => (crates.ecdsa c).isPoint k = true := by
  cases signature with
  | other => exact iff_of_true verify_other.denies fun _ _ _ _ _ h => absurd rfl h
  | bytes tag =>
    rcases asked_cases (ecdsaAsked realm algorithm key "public") data with
      hnone | ⟨⟨hash, curve, material⟩, bytes, hasked, rfl⟩
    · refine iff_of_true (verify_stops (fun h => absurd h (ne_hmac hname)) fun _ => hnone).denies ?_
      intro hash curve material hasked hdata
      exact absurd (hasked.symm.trans (hnone.resolve_right hdata)) (Option.some_ne_none _)
    · have hends : Ends crates (verify (hosted realm crates) algorithm key (.bytes tag) (.bytes bytes))
        trace (crates.verifyAnswer curve material (crates.digest hash bytes) tag) settleFlag :=
        verify_ecdsa bytes tag hname hasked
      rw [hends.flag_refuses fun v hv => crates.verifyAnswer_verify hv,
        crates.verifyAnswer_ne_null]
      refine ⟨fun h hash' curve' material' hasked' _ _ => ?_,
        fun h => h hash curve material hasked nofun nofun⟩
      cases hasked.symm.trans hasked'
      exact h

/-! ## what is signed verifies -/

theorem Ends.accepts {m : Subtle Bool} {x : Option JsVal} (h : Ends crates m trace x settleFlag)
    (hx : x = some (.bool true)) : (run m trace).1 = .ok true := by
  subst hx
  exact Gives.result h

/-- What `sign` gives is what the host gave it. -/
theorem settleSignature_hex (realm : Realm) {made signature : List UInt8}
    (h : settleSignature realm (.str (.hex made)) = .ok signature) : signature = made := by
  have hback : bytesOfHex (toHex made) = signature := Except.ok.inj h
  rw [← hback, bytesOfHex_toHex]

theorem verify_tag (hcrates : crates.HmacVerifies) {tag : List UInt8}
    (hok : (run (sign (hosted realm crates) algorithm key data) trace).1 = .ok tag)
    (hname : requested realm .sign algorithm = some (.lit "HMAC"))
    (hhash : key'.algorithm (txt "hash") = key.algorithm (txt "hash")) (hraw : key'.raw = key.raw)
    (later : List NativeCall) :
    (run (verify (hosted realm crates) algorithm key' (.bytes tag) data) later).1 = .ok true := by
  have hsame : hmacAsked realm algorithm key' = hmacAsked realm algorithm key := by
    unfold hmacAsked hashOf CryptoKey.material
    rw [hhash, hraw]
  rcases asked_cases (hmacAsked realm algorithm key) data with
    hnone | ⟨⟨hash, material⟩, bytes, hasked, rfl⟩
  · have hstops : Stops crates (sign (hosted realm crates) algorithm key data) trace :=
      sign_stops (fun _ => hnone) fun h => absurd h (ne_ecdsa hname)
    exact absurd hok (hstops.not_ok tag)
  · obtain ⟨v, hx, hv, -⟩ := (sign_hmac bytes hname hasked).ok hok
    have hnull : v ≠ .null := by
      rintro rfl
      cases hv
    obtain ⟨made, rfl, haccepts⟩ := CryptoCrates.hmacAnswer_accepts hcrates hx hnull
    obtain rfl := settleSignature_hex realm hv
    exact (verify_hmac bytes tag hname (hsame.trans hasked)).accepts haccepts

/-- A matching public key has the host verify what it signed, if the null of a failure is refused. -/
theorem verify_signature (hcrates : crates.EcdsaVerifies pair) {tag : List UInt8} {text : Text}
    {c : Curve} {k point : List UInt8}
    (hrefuses : Refuses crates trace (sign (hosted realm crates) algorithm key data))
    (hok : (run (sign (hosted realm crates) algorithm key data) trace).1 = .ok tag)
    (hname : requested realm .sign algorithm = some (.lit "ECDSA"))
    (hname' : key'.algorithm (txt "name") = .ok (.str (.lit "ECDSA")))
    (htype : key'.type = .str (.lit "public")) (hcurve : key.curve = some text)
    (hcurve' : key'.curve = some text) (hparse : Curve.parse text = some c)
    (hscalar : key.bytes = some k) (hpoint : key'.bytes = some point) (hpair : pair c k point)
    (later : List NativeCall) :
    (run (verify (hosted realm crates) algorithm key' (.bytes tag) data) later).1 = .ok true := by
  rcases asked_cases (ecdsaAsked realm algorithm key "private") data with
    hnone | ⟨⟨hash, curve, material⟩, bytes, hasked, rfl⟩
  · have hstops : Stops crates (sign (hosted realm crates) algorithm key data) trace :=
      sign_stops (fun h => absurd h (ne_hmac hname)) fun _ => hnone
    exact absurd hok (hstops.not_ok tag)
  · have hends : Ends crates (sign (hosted realm crates) algorithm key (.bytes bytes)) trace
      (crates.signAnswer curve material (crates.digest hash bytes)) (settleSignature realm) :=
      sign_ecdsa bytes hname hasked
    obtain ⟨v, hx, hv, -⟩ := hends.ok hok
    have hnull : v ≠ .null := by
      rintro rfl
      exact hends.signature_refuses.mp hrefuses hx
    obtain ⟨-, hhash, hsame, hmaterial⟩ := ecdsaAsked_eq_some.mp hasked
    obtain rfl : curve = text := Option.some.inj (hsame.symm.trans hcurve)
    obtain ⟨material', hmaterial', -⟩ := Option.bind_eq_some_iff.mp hpoint
    obtain ⟨made, rfl, haccepts⟩ := CryptoCrates.signAnswer_accepts hcrates hx hnull hparse
      (CryptoKey.fromHex_material hscalar hmaterial) (CryptoKey.fromHex_material hpoint hmaterial')
      hpair
    obtain rfl := settleSignature_hex realm hv
    have hasked' : ecdsaAsked realm algorithm key' "public" = some (hash, curve, material') :=
      ecdsaAsked_eq_some.mpr ⟨⟨_, hname', by rw [htype]; decide⟩, hhash, hcurve', hmaterial'⟩
    exact (verify_ecdsa bytes tag hname hasked').accepts haccepts

/-! ## generated keys -/

theorem toHex_ne_colon (bytes : List UInt8) : ∀ c ∈ toHex bytes, decide (c ≠ 58) = true := by
  intro c hc
  obtain ⟨d, hd, rfl⟩ := Hex.mem_ofBytes hc
  exact decide_eq_true (Hex.hexChar_ne (by decide) hd)

theorem splitPair_toHex (scalar point : List UInt8) :
    splitPair (toHex scalar ++ 58 :: toHex point) = (toHex scalar, some (toHex point)) := by
  unfold splitPair
  rw [List.takeWhile_append_of_pos (toHex_ne_colon scalar),
    List.dropWhile_append_of_pos (toHex_ne_colon scalar), List.takeWhile_cons_of_neg (by decide),
    List.dropWhile_cons_of_neg (by decide), List.append_nil]
  dsimp only
  rw [List.takeWhile_eq_self_iff.mpr (toHex_ne_colon point)]

theorem bytes_hex {key : CryptoKey} {bytes : List UInt8} (h : key.raw = .str (.hex bytes)) :
    key.bytes = some bytes := by
  unfold CryptoKey.bytes CryptoKey.material
  rw [h]
  show (argText (.str (.hex bytes))).bind (fun text => (NovaRuntime.fromHex text).join) = some bytes
  rw [argText_hex, Option.bind_some, fromHex_toHex]
  rfl

theorem scalarPoint_hex (scalar point : List UInt8) :
    scalarPoint (((JsString.hex scalar).append (.lit ":")).append (.hex point)) =
      (.str (.hex scalar), .str (.hex point)) := by
  generalize htext : ((JsString.hex scalar).append (.lit ":")).append (.hex point) = text
  have hsplit : splitPair text.units = (toHex scalar, some (toHex point)) := by
    rw [← htext, ← splitPair_toHex]
    exact congrArg splitPair (List.append_assoc _ _ _)
  unfold scalarPoint
  refine Prod.ext ?_ ?_
  · show JsVal.str _ = JsVal.str _
    congr 2
    exact congrArg Prod.fst hsplit
  · dsimp only
    split
    · next hnone =>
      rw [hsplit] at hnone
      cases hnone
    · next point' hsome =>
      rw [hsplit] at hsome
      cases hsome
      rfl

variable (crates) in
theorem generate_answer {curve : JsString} (h : curve ∈ curves) :
    ∃ c, Curve.parse curve.units = some c ∧ argText (.str curve) = some curve.units ∧
      (crates.nativeEcdsaGenerate (.str curve)).run =
        some (.ok (.str (((JsString.hex (crates.ecdsa c).generate.1).append (.lit ":")).append
          (.hex (crates.ecdsa c).generate.2)))) := by
  unfold curves at h
  rcases List.mem_cons.mp h with rfl | h
  · exact ⟨.p256, rfl, by decide, rfl⟩
  · rw [List.mem_singleton.mp h]
    exact ⟨.p384, rfl, by decide, rfl⟩

theorem generateKey_matching {extractable : JsVal} {usages : Js (List JsVal)}
    {privateKey publicKey : NewKey} {shared : privateKey.algorithm = publicKey.algorithm}
    {trace' : List NativeCall}
    (hpair : ∀ c, pair c (crates.ecdsa c).generate.1 (crates.ecdsa c).generate.2)
    (h : run (generateKey (hosted realm crates) algorithm extractable usages) trace =
      (.ok (.pair privateKey publicKey shared), trace')) :
    Matching pair (.lit "ECDSA") privateKey.view publicKey.view := by
  unfold generateKey at h
  obtain ⟨name, -, h⟩ := run_js_bind_ok _ h
  split at h
  · obtain ⟨curve, t, hcurve, h⟩ := run_bind_ok _ h
    obtain ⟨answer, t', hanswer, h⟩ := run_bind_ok _ h
    have hmem : curve ∈ curves := by
      unfold curveOf at hcurve
      obtain ⟨named, -, hcurve⟩ := run_js_bind_ok _ hcurve
      split at hcurve
      · next hnamed =>
        cases hcurve
        exact hnamed
      · cases hcurve
    obtain ⟨c, hparse, htext, hgenerate⟩ := generate_answer crates hmem
    have hnative : ((hosted realm crates).native t (.ecdsaGenerate (.str curve))).run = _ := hgenerate
    rw [run_native_ok _ _ hnative] at hanswer
    cases hanswer
    obtain ⟨asked, -, h⟩ := run_js_bind_ok _ h
    cases h
    refine .ecdsa rfl rfl htext htext hparse (bytes_hex ?_) (bytes_hex ?_) (hpair c)
    · exact congrArg Prod.fst (scalarPoint_hex _ _)
    · exact congrArg Prod.snd (scalarPoint_hex _ _)
  split at h
  · cases h
  · obtain ⟨length, -, h⟩ := run_js_bind_ok _ h
    split at h
    · obtain ⟨asked, -, h⟩ := run_js_bind_ok _ h
      cases h
    · cases h

/-- `sign` and `verify` agree exactly where the host can use what they ask it with. -/
theorem agree_iff_usable (realm : Realm) (crates : CryptoCrates)
    (pair : Curve → List UInt8 → List UInt8 → Prop) (hhmac : crates.HmacVerifies)
    (hecdsa : crates.EcdsaVerifies pair) (algorithm : Algorithm) (key : CryptoKey)
    (data signature : Source) (trace : List NativeCall) :
    Agree realm crates algorithm key data signature trace pair ↔
      Usable realm crates algorithm key data signature := by
  constructor
  · intro h
    have hdenies := And.intro h.denied h.verifyRefuses
    exact {
      hmac := fun hname => (verify_hmac_iff hname).mp hdenies _ _
      ecdsaSign := sign_refuses_iff.mp h.signRefuses _ _ _ _
      ecdsaVerify := fun hname => (verify_ecdsa_iff hname).mp hdenies _ _ _ }
  · intro h
    have hsign : Refuses crates trace (sign (hosted realm crates) algorithm key data) :=
      sign_refuses_iff.mpr fun _ _ _ _ => h.ecdsaSign
    have hdenies : Denies crates trace (verify (hosted realm crates) algorithm key signature data) := by
      by_cases hname : requested realm .verify algorithm = some (.lit "HMAC")
      · exact (verify_hmac_iff hname).mpr fun _ _ => h.hmac hname
      · by_cases hname' : requested realm .verify algorithm = some (.lit "ECDSA")
        · exact (verify_ecdsa_iff hname').mpr fun _ _ _ => h.ecdsaVerify hname'
        · exact (verify_stops (fun h => absurd h hname) fun h => absurd h hname').denies
    refine ⟨fun later hok hname hmatching => ?_, hdenies.1, hsign, hdenies.2⟩
    cases hmatching with
    | hmac hhash hraw => exact verify_tag hhmac hok hname hhash hraw later
    | ecdsa hname' htype hcurve hcurve' hparse hscalar hpoint hpair =>
      exact verify_signature hecdsa hsign hok hname hname' htype hcurve hcurve' hparse hscalar
        hpoint hpair later

end agreement

/-! ## at a known tag and signature -/

def keyTag : List UInt8 :=
  [0x5d, 0x5d, 0x13, 0x95, 0x63, 0xc9, 0x5b, 0x59, 0x67, 0xb9, 0xbd, 0x9a, 0x8c, 0x9b, 0x23, 0x3a,
    0x9d, 0xed, 0xb4, 0x50, 0x72, 0x79, 0x4c, 0xd2, 0x32, 0xdc, 0x1b, 0x74, 0x83, 0x26, 0x07, 0xd0]

def sampleHmac (hash : Hash) (key data : List UInt8) : List UInt8 :=
  if hash = .sha256 ∧ key = [0x6b, 0x65, 0x79] ∧ data = [] then keyTag else []

/-- a private key of P-256 -/
def knownScalar : List UInt8 :=
  [0xc9, 0xaf, 0xa9, 0xd8, 0x45, 0xba, 0x75, 0x16, 0x6b, 0x5c, 0x21, 0x57, 0x67, 0xb1, 0xd6, 0x93,
    0x4e, 0x50, 0xc3, 0xdb, 0x36, 0xe8, 0x9b, 0x12, 0x7b, 0x8a, 0x62, 0x2b, 0x12, 0x0f, 0x67, 0x21]

def knownPoint : List UInt8 :=
  [0x04, 0x60, 0xfe, 0xd4, 0xba, 0x25, 0x5a, 0x9d, 0x31, 0xc9, 0x61, 0xeb, 0x74, 0xc6, 0x35, 0x6d,
    0x68, 0xc0, 0x49, 0xb8, 0x92, 0x3b, 0x61, 0xfa, 0x6c, 0xe6, 0x69, 0x62, 0x2e, 0x60, 0xf2, 0x9f,
    0xb6, 0x79, 0x03, 0xfe, 0x10, 0x08, 0xb8, 0xbc, 0x99, 0xa4, 0x1a, 0xe9, 0xe9, 0x56, 0x28, 0xbc,
    0x64, 0xf2, 0xf1, 0xb2, 0x0c, 0x2d, 0x7e, 0x9f, 0x51, 0x77, 0xa3, 0xc2, 0x94, 0xd4, 0x46, 0x22,
    0x99]

/-- a text, its SHA-256, and what the key signs that as -/
def knownText : List UInt8 := [0x73, 0x61, 0x6d, 0x70, 0x6c, 0x65]

def knownDigest : List UInt8 :=
  [0xaf, 0x2b, 0xdb, 0xe1, 0xaa, 0x9b, 0x6e, 0xc1, 0xe2, 0xad, 0xe1, 0xd6, 0x94, 0xf4, 0x1f, 0xc7,
    0x1a, 0x83, 0x1d, 0x02, 0x68, 0xe9, 0x89, 0x15, 0x62, 0x11, 0x3d, 0x8a, 0x62, 0xad, 0xd1, 0xbf]

def knownSignature : List UInt8 :=
  [0xef, 0xd4, 0x8b, 0x2a, 0xac, 0xb6, 0xa8, 0xfd, 0x11, 0x40, 0xdd, 0x9c, 0xd4, 0x5e, 0x81, 0xd6,
    0x9d, 0x2c, 0x87, 0x7b, 0x56, 0xaa, 0xf9, 0x91, 0xc3, 0x4d, 0x0e, 0xa8, 0x4e, 0xaf, 0x37, 0x16,
    0xf7, 0xcb, 0x1c, 0x94, 0x2d, 0x65, 0x7c, 0x41, 0xd4, 0x36, 0xc7, 0xa1, 0xb6, 0xe2, 0x9f, 0x65,
    0xf3, 0xe9, 0x00, 0xdb, 0xb9, 0xaf, 0xf4, 0x06, 0x4d, 0xc4, 0xab, 0x2f, 0x84, 0x3a, 0xcd, 0xa8]

def sampleSignature (digest : List UInt8) : List UInt8 :=
  if digest = knownDigest then knownSignature else []

/-- crates that know that tag and that signature -/
def sampleCrates : CryptoCrates where
  digest hash data := if hash = .sha256 ∧ data = knownText then knownDigest else []
  hmac := sampleHmac
  hmacHolds hash key data tag := decide (tag = sampleHmac hash key data)
  aes := CryptoCrates.inert.aes
  ecdsa _ :=
    ⟨(knownScalar, knownPoint),
      fun key digest => if key = knownScalar then some (sampleSignature digest) else none,
      fun point => decide (point = knownPoint), fun _ => true,
      fun _ digest signature => decide (signature = sampleSignature digest)⟩

def samplePair (_ : Curve) (key point : List UInt8) : Prop := key = knownScalar ∧ point = knownPoint

theorem sampleCrates_hmac : sampleCrates.HmacVerifies := fun _ _ _ => decide_eq_true rfl

theorem sampleCrates_ecdsa : sampleCrates.EcdsaVerifies samplePair := by
  rintro _ _ _ digest signature ⟨rfl, rfl⟩ hsign
  have hmade : sampleSignature digest = signature := Option.some.inj hsign
  exact ⟨decide_eq_true (p := knownPoint = knownPoint) rfl, rfl, decide_eq_true hmade.symm⟩

/-- an HMAC key of the three letters, for this hash -/
def sampleKey (hash : JsString) : CryptoKey :=
  ((KeyKind.hmac hash).key true [] (.str (.hex [0x6b, 0x65, 0x79]))).view

def hmacAlgorithm : Algorithm := .plain (.lit "HMAC") .undefined .other none

theorem agree_iff_usable_sample :
    Agree (.ascii sampleCrates) sampleCrates hmacAlgorithm (sampleKey (.lit "SHA-256")) (.bytes [])
        (.bytes keyTag) [] samplePair ∧
      (run (verify (.ascii sampleCrates) hmacAlgorithm (sampleKey (.lit "SHA-256")) (.bytes keyTag)
        (.bytes [])) []).1 = .ok true := by
  have h : Agree (.ascii sampleCrates) sampleCrates hmacAlgorithm (sampleKey (.lit "SHA-256"))
      (.bytes []) (.bytes keyTag) [] samplePair :=
    (agree_iff_usable (.ascii sampleCrates) sampleCrates samplePair sampleCrates_hmac
      sampleCrates_ecdsa hmacAlgorithm (sampleKey (.lit "SHA-256")) (.bytes []) (.bytes keyTag) []).mpr
      { hmac := by
          rintro hash material - ⟨⟩ - - bytes ⟨⟩
          exact ⟨_, rfl, rfl⟩
        ecdsaSign := fun h => absurd h (by decide)
        ecdsaVerify := fun h => absurd h (by decide) }
  exact ⟨h, h.signed [] rfl rfl (.hmac rfl rfl)⟩

/-- what a read of a member of null throws -/
def strictRealm (crates : CryptoCrates) : Realm :=
  { Realm.ascii crates with fromOther := fun _ => .error (.typeError (.lit "null has no length")) }

/-- Under an HMAC key for a hash that the host lacks every signature is denied. -/
theorem null_is_not_refused :
    (run (verify (strictRealm sampleCrates) hmacAlgorithm (sampleKey (.lit "MD5")) (.bytes [])
        (.bytes [])) []).1 = .ok false ∧
      ¬Agree (strictRealm sampleCrates) sampleCrates hmacAlgorithm (sampleKey (.lit "MD5")) (.bytes [])
        (.bytes []) [] samplePair := by
  refine ⟨rfl, fun h => ?_⟩
  obtain ⟨name, message, hrun⟩ := h.verifyRefuses ⟨[_], _, rfl, List.mem_singleton.mpr rfl, rfl⟩
  cases hrun

end Subtle

end NovaRuntime
