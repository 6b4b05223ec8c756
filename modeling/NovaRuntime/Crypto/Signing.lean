import NovaRuntime.Crypto.Crates
import NovaRuntime.Crypto.Separation
import NovaRuntime.Lib.Except

/-!
# How `sign` and `verify` come to the host

* `hmacAsked`, `ecdsaAsked`   what an operation asks the host with;
* `Stops`   it fails, without a null answer of the host;
* `Ends`    it comes to a native, and settles by what that answers.
-/

namespace NovaRuntime
open Lib

/-! ## what an operation asks with -/

namespace CryptoKey
variable (key : CryptoKey)

def material : Option Text :=
  match key.raw with
  | .undefined => none
  | raw => argText raw

def curve : Option Text := do argText (← (key.algorithm (txt "namedCurve")).toOption)

def bytes : Option (List UInt8) := do (fromHex (← key.material)).join

end CryptoKey

namespace Subtle
variable (realm : Realm) (crates : CryptoCrates) (algorithm : Algorithm) (key : CryptoKey)
  (data signature : Source) (trace : List NativeCall) {α : Type}

/-- the hash and the material that HMAC asks the host with, if it comes to that -/
def hmacAsked : Option (Text × Text) := do
  let hash ← (hashOf realm algorithm key).toOption
  return (decodeLossy hash.units, ← key.material)

/-- the hash, the curve and the material that ECDSA asks the host with -/
def ecdsaAsked (wanted : String) : Option (Hash × Text × Text) := do
  if (← (key.algorithm (txt "name")).toOption).isText (.lit "ECDSA") && key.type.isText (.lit wanted)
  then
    let hash ← Hash.parse (← (ecdsaHash realm algorithm).toOption).units
    return (hash, ← key.curve, ← key.material)
  else none

end Subtle

theorem CryptoKey.fromHex_material {key : CryptoKey} {bytes : List UInt8} {material : Text}
    (h : key.bytes = some bytes) (hmaterial : key.material = some material) :
    fromHex material = some (some bytes) := by
  unfold CryptoKey.bytes at h
  rw [hmaterial] at h
  exact Option.join_eq_some_iff.mp h

/-! ## the branches -/

namespace Subtle
section branches
variable {realm : Realm} {crates : CryptoCrates} {algorithm : Algorithm} {key : CryptoKey}
  {data signature : Source} {trace : List NativeCall} {α β : Type}

/-- the operation fails, and the host has not answered null -/
def Stops (crates : CryptoCrates) (m : Subtle α) (trace : List NativeCall) : Prop :=
  ∃ fault new, run m trace = (.error fault, new ++ trace) ∧
    ∀ call ∈ new, (crates.answer call).run ≠ some (.ok .null)

theorem Stops.js {x : Js α} {f : α → Subtle β}
    (h : ∀ a, x = .ok a → Stops crates (f a) trace) : Stops crates (Subtle.js x >>= f) trace := by
  cases hx : x with
  | error e => exact ⟨.thrown e, [], run_js_error trace rfl f, nofun⟩
  | ok a =>
    unfold Stops
    rw [run_js_ok trace rfl f]
    exact h a hx

theorem Stops.of_run {m m' : Subtle α} (hrun : run m trace = run m' trace)
    (h : Stops crates m' trace) : Stops crates m trace := by
  unfold Stops
  rw [hrun]
  exact h

theorem Stops.refuse (name : String) (message : JsString) (f : α → Subtle β) :
    Stops crates (Subtle.refuse name message >>= f) trace :=
  ⟨.exception (txt name) message, [], rfl, nofun⟩

theorem Stops.throws (call : NativeCall) (h : Native.Throws (crates.answer call))
    (f : JsVal → Subtle α) : Stops crates (native (hosted realm crates) call >>= f) trace := by
  obtain ⟨e, he⟩ := h
  have hrun : ((hosted realm crates).native trace call).run = some (.error e) :=
    congrArg ExceptT.run he
  refine ⟨.thrown e, [call], ?_, fun call' hcall' => ?_⟩
  · rw [run_bind, run_native_error _ hrun]
    rfl
  · rw [List.mem_singleton.mp hcall', he]
    nofun

/-- A key without material is refused, unless it is the conversion that fails. -/
theorem rawOf_cases (key : CryptoKey) :
    (key.material = none ∧ ∃ message, rawOf key = refuse "InvalidAccessError" message) ∨
      (rawOf key = pure key.raw ∧ key.material = argText key.raw) := by
  unfold CryptoKey.material rawOf
  cases key.raw with
  | undefined => exact .inl ⟨rfl, _, rfl⟩
  | _ => exact .inr ⟨rfl, rfl⟩

theorem Stops.rawOf {f : JsVal → Subtle α}
    (h : key.material = argText key.raw → Stops crates (f key.raw) trace) :
    Stops crates (Subtle.rawOf key >>= f) trace := by
  rcases rawOf_cases key with ⟨-, message, hraw⟩ | ⟨hraw, htext⟩
  · rw [hraw]
    exact .refuse _ _ _
  · rw [hraw, pure_bind]
    exact h htext

theorem rawOf_material {material : Text} (h : key.material = some material) :
    rawOf key = pure key.raw ∧ argText key.raw = some material := by
  rcases rawOf_cases key with ⟨hnone, -⟩ | ⟨hraw, htext⟩
  · rw [hnone] at h
    cases h
  · exact ⟨hraw, htext ▸ h⟩

/-- The HMAC branch stops when it has nothing to ask the host with. -/
theorem hmac_stops {f : JsString → JsVal → List UInt8 → Subtle α}
    (h : hmacAsked realm algorithm key = none ∨ data = .other)
    (hf : ∀ hash bytes, argText key.raw = none → Stops crates (f hash key.raw bytes) trace) :
    Stops crates (do
      let hash ← js (hashOf (hosted realm crates) algorithm key)
      let raw ← rawOf key
      let data ← js (bytesOfSource data)
      f hash raw data) trace := by
  refine .js fun hash hhash => .rawOf fun hraw => .js fun bytes hbytes => hf hash bytes ?_
  have hdata : data ≠ .other := by
    rintro rfl
    cases hbytes
  have hhash : hashOf realm algorithm key = .ok hash := hhash
  have hnone := h.resolve_right hdata
  unfold hmacAsked at hnone
  rw [hhash] at hnone
  rw [← hraw]
  cases hm : key.material with
  | none => rfl
  | some material =>
    rw [hm] at hnone
    cases hnone

theorem run_hmac {hash material : Text} (bytes : List UInt8)
    (h : hmacAsked realm algorithm key = some (hash, material)) :
    argText key.raw = some material ∧ ∃ name : JsString, decodeLossy name.units = hash ∧
      ∀ f : JsString → JsVal → List UInt8 → Subtle α,
        run (do
          let hash ← js (hashOf (hosted realm crates) algorithm key)
          let raw ← rawOf key
          let data ← js (bytesOfSource (.bytes bytes))
          f hash raw data) trace = run (f name key.raw bytes) trace := by
  unfold hmacAsked at h
  obtain ⟨name, hname, h⟩ := Option.bind_eq_some_iff.mp h
  obtain ⟨material', hm, h⟩ := Option.bind_eq_some_iff.mp h
  cases h
  obtain ⟨hraw, htext⟩ := rawOf_material hm
  have hhash : hashOf (hosted realm crates) algorithm key = .ok name := toOption_eq_some.mp hname
  have hbytes : bytesOfSource (.bytes bytes) = .ok bytes := rfl
  refine ⟨htext, name, rfl, fun f => ?_⟩
  rw [run_js_ok trace hhash, hraw, pure_bind, run_js_ok trace hbytes]

theorem parse_of_digests {name : JsString} (h : name ∈ digests) :
    ∃ hash, Hash.parse name.units = some hash := by
  unfold digests at h
  simp only [List.mem_cons, List.not_mem_nil, or_false] at h
  rcases h with rfl | rfl | rfl | rfl <;> exact ⟨_, rfl⟩

theorem digests_of_parse {name : JsString} {hash : Hash} (h : Hash.parse name.units = some hash) :
    name ∈ digests := by
  unfold Hash.parse at h
  obtain ⟨units, small⟩ := name
  split_ifs at h with h1 h2 h3 h4
  · subst h1
    exact List.mem_cons_self
  · subst h2
    exact .tail _ List.mem_cons_self
  · subst h3
    exact .tail _ (.tail _ List.mem_cons_self)
  · subst h4
    exact .tail _ (.tail _ (.tail _ List.mem_cons_self))

theorem run_digest {name : JsString} {hash : Hash} (h : Hash.parse name.units = some hash)
    (data : List UInt8) (f : JsVal → Subtle α) :
    run (native (hosted realm crates) (.digest (.str name) (.str (.hex data))) >>= f) trace =
      run (f (.str (.hex (crates.digest hash data))))
        (.digest (.str name) (.str (.hex data)) :: trace) := by
  have hanswer : ((hosted realm crates).native trace (.digest (.str name) (.str (.hex data)))).run =
      some (.ok (.str (.hex (crates.digest hash data)))) := crates.nativeDigest_eq h data
  rw [run_bind, run_native_ok _ trace hanswer]

theorem digest_not_null {name : JsString} {hash : Hash} (h : Hash.parse name.units = some hash)
    (data : List UInt8) :
    (crates.answer (.digest (.str name) (.str (.hex data)))).run ≠ some (.ok .null) := by
  show (crates.nativeDigest (.str name) (.str (.hex data))).run ≠ _
  rw [crates.nativeDigest_eq h data]
  nofun

theorem Stops.after {m m' : Subtle α} {call : NativeCall} (h : Stops crates m' (call :: trace))
    (hrun : run m trace = run m' (call :: trace))
    (hcall : (crates.answer call).run ≠ some (.ok .null)) : Stops crates m trace := by
  obtain ⟨fault, new, hfault, hnew⟩ := h
  refine ⟨fault, new ++ [call], ?_, fun call' hcall' => ?_⟩
  · rw [hrun, hfault, List.append_assoc]
    rfl
  · rcases List.mem_append.mp hcall' with hcall' | hcall'
    · exact hnew call' hcall'
    · rw [List.mem_singleton.mp hcall']
      exact hcall

theorem ecdsaAsked_eq_some {wanted : String} {hash : Hash} {curve material : Text} :
    ecdsaAsked realm algorithm key wanted = some (hash, curve, material) ↔
      (∃ name, key.algorithm (txt "name") = .ok name ∧
        (name.isText (.lit "ECDSA") && key.type.isText (.lit wanted)) = true) ∧
      (∃ name, ecdsaHash realm algorithm = .ok name ∧ Hash.parse name.units = some hash) ∧
      key.curve = some curve ∧ key.material = some material := by
  unfold ecdsaAsked
  constructor
  · intro h
    obtain ⟨name, hname, h⟩ := Option.bind_eq_some_iff.mp h
    split_ifs at h with hkey
    obtain ⟨hashName, hhash, h⟩ := Option.bind_eq_some_iff.mp h
    obtain ⟨parsed, hparsed, h⟩ := Option.bind_eq_some_iff.mp h
    obtain ⟨text, htext, h⟩ := Option.bind_eq_some_iff.mp h
    obtain ⟨material', hmaterial, h⟩ := Option.bind_eq_some_iff.mp h
    cases h
    exact ⟨⟨name, toOption_eq_some.mp hname, hkey⟩, ⟨hashName, toOption_eq_some.mp hhash, hparsed⟩,
      htext, hmaterial⟩
  · rintro ⟨⟨name, hname, hkey⟩, ⟨hashName, hhash, hparsed⟩, htext, hmaterial⟩
    rw [hname, hhash, htext, hmaterial]
    show (if (name.isText (.lit "ECDSA") && key.type.isText (.lit wanted)) = true then
      (Hash.parse hashName.units).bind _ else none) = _
    rw [if_pos hkey, hparsed]
    rfl

theorem check_iff {name type : JsVal} {wanted : String} :
    (!name.isText (.lit "ECDSA") || !type.isText (.lit wanted)) = true ↔
      ¬(name.isText (.lit "ECDSA") && type.isText (.lit wanted)) = true := by
  rw [← Bool.not_and, Bool.not_eq_true', Bool.not_eq_true]

/-- The ECDSA branch stops when it has nothing to ask the host with. -/
theorem ecdsa_stops {wanted op : String} {f : JsVal × JsVal → Subtle α}
    (h : ecdsaAsked realm algorithm key wanted = none ∨ data = .other)
    (hf : ∀ digest curve trace, argText curve = none ∨ key.material = none →
      Stops crates (f (digest, curve)) trace) :
    Stops crates (ecdsaDigest (hosted realm crates) wanted op algorithm key data >>= f) trace := by
  unfold ecdsaDigest
  rw [bind_assoc]
  refine .js fun name hname => ?_
  by_cases hcheck : (!name.isText (.lit "ECDSA") || !key.type.isText (.lit wanted)) = true
  · rw [if_pos hcheck]
    exact .refuse _ _ _
  rw [if_neg hcheck, bind_assoc]
  refine .js fun hash hhash => ?_
  by_cases hdigest : hash ∈ digests
  swap
  · rw [if_pos hdigest]
    exact .refuse _ _ _
  rw [if_neg (not_not_intro hdigest), bind_assoc]
  obtain ⟨parsed, hparsed⟩ := parse_of_digests hdigest
  refine .js fun bytes hbytes => ?_
  rw [bind_assoc]
  refine .after ?_ (run_digest hparsed bytes _) (digest_not_null hparsed bytes)
  rw [bind_assoc]
  refine .js fun curve hcurve => ?_
  rw [pure_bind]
  have hdata : data ≠ .other := by
    rintro rfl
    cases hbytes
  have hnone := h.resolve_right hdata
  refine hf _ _ _ ?_
  by_contra hsome
  obtain ⟨htext, hmaterial⟩ := not_or.mp hsome
  obtain ⟨text, htext⟩ := Option.ne_none_iff_exists'.mp htext
  obtain ⟨material, hmaterial⟩ := Option.ne_none_iff_exists'.mp hmaterial
  have hcurve : key.curve = some text := by
    rw [CryptoKey.curve, hcurve]
    exact htext
  have hasked : ecdsaAsked realm algorithm key wanted = some (parsed, text, material) :=
    ecdsaAsked_eq_some.mpr ⟨⟨name, hname, not_not.mp (mt check_iff.mpr hcheck)⟩,
      ⟨hash, hhash, hparsed⟩, hcurve, hmaterial⟩
  rw [hnone] at hasked
  cases hasked

theorem run_ecdsa {wanted : String} {hash : Hash} {curve material : Text} (bytes : List UInt8)
    (h : ecdsaAsked realm algorithm key wanted = some (hash, curve, material)) :
    key.material = some material ∧ ∃ name value, argText value = some curve ∧
      (crates.answer (.digest name (.str (.hex bytes)))).run ≠ some (.ok .null) ∧
      ∀ (op : String) (f : JsVal × JsVal → Subtle α),
        run (ecdsaDigest (hosted realm crates) wanted op algorithm key (.bytes bytes) >>= f) trace =
          run (f (.str (.hex (crates.digest hash bytes)), value))
            (.digest name (.str (.hex bytes)) :: trace) := by
  obtain ⟨⟨name, hname, hkey⟩, ⟨hashName, hhash, hparsed⟩, hcurve, hmaterial⟩ :=
    ecdsaAsked_eq_some.mp h
  obtain ⟨value, hvalue, htext⟩ := Option.bind_eq_some_iff.mp hcurve
  have hhash : ecdsaHash (hosted realm crates) algorithm = .ok hashName := hhash
  have hbytes : bytesOfSource (.bytes bytes) = .ok bytes := rfl
  refine ⟨hmaterial, .str hashName, value, htext, digest_not_null hparsed bytes, fun op f => ?_⟩
  unfold ecdsaDigest
  rw [bind_assoc, run_js_ok trace hname, if_neg (fun hcheck => check_iff.mp hcheck hkey), bind_assoc,
    run_js_ok trace hhash, if_neg (not_not_intro (digests_of_parse hparsed)), bind_assoc,
    run_js_ok trace hbytes, bind_assoc, run_digest hparsed, bind_assoc,
    run_js_ok _ (toOption_eq_some.mp hvalue), pure_bind]

/-! ## how an operation ends -/

/-- the host answers `v` last in the operation, which then gives `result` -/
def Gives (crates : CryptoCrates) (m : Subtle α) (trace : List NativeCall) (v : JsVal)
    (result : Except Fault α) : Prop :=
  ∃ new call, run m trace = (result, call :: new ++ trace) ∧
    (crates.answer call).run = some (.ok v) ∧
    ∀ earlier ∈ new, (crates.answer earlier).run ≠ some (.ok .null)

/-- the operation comes to a native that answers `x`, or panics, and goes on with `settle` -/
def Ends (crates : CryptoCrates) (m : Subtle α) (trace : List NativeCall) (x : Option JsVal)
    (settle : JsVal → Except Fault α) : Prop :=
  x.elim (Stops crates m trace) fun v => Gives crates m trace v (settle v)

theorem Ends.native (realm : Realm) {m : Subtle α} {x : Option JsVal} {new : List NativeCall}
    (call : NativeCall) {f : JsVal → Subtle α} {settle : JsVal → Except Fault α}
    (hanswer : (crates.answer call).run = x.map .ok)
    (hrun : run m trace = run (Subtle.native (hosted realm crates) call >>= f) (new ++ trace))
    (hnew : ∀ earlier ∈ new, (crates.answer earlier).run ≠ some (.ok .null))
    (hsettle : ∀ v t, run (f v) t = (settle v, t)) : Ends crates m trace x settle := by
  cases x with
  | none =>
    have hcrash : ((hosted realm crates).native (new ++ trace) call).run = none := hanswer
    refine ⟨.crash, call :: new, ?_, fun earlier hearlier => ?_⟩
    · rw [hrun, run_bind, run_native_crash _ _ hcrash]
      rfl
    · rcases List.mem_cons.mp hearlier with rfl | hearlier
      · rw [hanswer]
        nofun
      · exact hnew earlier hearlier
  | some v =>
    have hok : ((hosted realm crates).native (new ++ trace) call).run = some (.ok v) := hanswer
    refine ⟨new, call, ?_, hanswer, hnew⟩
    rw [hrun, run_bind, run_native_ok _ _ hok]
    exact hsettle v _

theorem Stops.not_ok {m : Subtle α} (h : Stops crates m trace) (a : α) :
    (run m trace).1 ≠ .ok a := by
  obtain ⟨fault, new, hrun, -⟩ := h
  rw [hrun]
  nofun

theorem Gives.result {m : Subtle α} {v : JsVal} {result : Except Fault α}
    (h : Gives crates m trace v result) : (run m trace).1 = result := by
  obtain ⟨new, call, hrun, -⟩ := h
  rw [hrun]

/-- what `sign` gives for the answer to HMAC -/
def settleTag (realm : Realm) (tag : JsVal) : Except Fault (List UInt8) :=
  if tag.isNull then
    .error (.exception (txt "NotSupportedError") (.lit "that is not a hash this runtime has"))
  else (fromHex realm tag).mapError .thrown

/-- what it gives for a signature -/
def settleSignature (realm : Realm) (signature : JsVal) : Except Fault (List UInt8) :=
  (fromHex realm signature).mapError .thrown

/-- what `verify` gives for either -/
def settleFlag (held : JsVal) : Except Fault Bool := .ok held.isTrue

theorem bySignature_ecdsa {message : JsString} {ecdsa hmac : Subtle α}
    (hname : requested realm .sign algorithm = some (.lit "ECDSA")) :
    run (bySignature (hosted realm crates) algorithm ecdsa hmac message) trace = run ecdsa trace := by
  rcases bySignature_cases (hosted realm crates) algorithm trace ecdsa hmac message with
    ⟨-, hrun⟩ | ⟨hhmac, -⟩ | ⟨hnone, -⟩
  · exact hrun
  · have := Option.some.inj (hname.symm.trans hhmac)
    cases this
  · have := hnone _ hname
    cases this

theorem bySignature_hmac {message : JsString} {ecdsa hmac : Subtle α}
    (hname : requested realm .sign algorithm = some (.lit "HMAC")) :
    run (bySignature (hosted realm crates) algorithm ecdsa hmac message) trace = run hmac trace := by
  rcases bySignature_cases (hosted realm crates) algorithm trace ecdsa hmac message with
    ⟨hecdsa, -⟩ | ⟨-, hrun⟩ | ⟨hnone, -⟩
  · have := Option.some.inj (hname.symm.trans hecdsa)
    cases this
  · exact hrun
  · have := hnone _ hname
    cases this

theorem bySignature_stops {message : JsString} {ecdsa hmac : Subtle α}
    (hecdsa : requested realm .sign algorithm = some (.lit "ECDSA") → Stops crates ecdsa trace)
    (hhmac : requested realm .sign algorithm = some (.lit "HMAC") → Stops crates hmac trace) :
    Stops crates (bySignature (hosted realm crates) algorithm ecdsa hmac message) trace := by
  rcases bySignature_cases (hosted realm crates) algorithm trace ecdsa hmac message with
    ⟨hname, hrun⟩ | ⟨hname, hrun⟩ | ⟨-, fault, hrun⟩
  · exact .of_run hrun (hecdsa hname)
  · exact .of_run hrun (hhmac hname)
  · exact ⟨fault, [], hrun, nofun⟩

/-! ## `sign` -/

theorem sign_hmac {hash material : Text} (bytes : List UInt8)
    (hname : requested realm .sign algorithm = some (.lit "HMAC"))
    (h : hmacAsked realm algorithm key = some (hash, material)) :
    Ends crates (sign (hosted realm crates) algorithm key (.bytes bytes)) trace
      (crates.hmacAnswer hash material bytes none) (settleTag realm) := by
  obtain ⟨htext, name, rfl, hrun⟩ := run_hmac bytes h
  rw [sign_eq]
  refine .native realm (.hmac (.str name) key.raw (.str (.hex bytes)) none)
    (crates.nativeHmac_eq htext bytes none) ((bySignature_hmac hname).trans (hrun _))
    (List.forall_mem_nil _) fun v t => ?_
  unfold settleTag
  cases v.isNull <;> rfl

theorem sign_ecdsa {hash : Hash} {curve material : Text} (bytes : List UInt8)
    (hname : requested realm .sign algorithm = some (.lit "ECDSA"))
    (h : ecdsaAsked realm algorithm key "private" = some (hash, curve, material)) :
    Ends crates (sign (hosted realm crates) algorithm key (.bytes bytes)) trace
      (crates.signAnswer curve material (crates.digest hash bytes)) (settleSignature realm) := by
  obtain ⟨hmaterial, name, value, hvalue, hnull, hrun⟩ := run_ecdsa bytes h
  obtain ⟨hraw, htext⟩ := rawOf_material hmaterial
  rw [sign_eq]
  refine .native realm (.ecdsaSign value key.raw _) (crates.nativeEcdsaSign_eq hvalue htext _)
    ((bySignature_ecdsa hname).trans ((hrun _ _).trans ?_)) (List.forall_mem_singleton.mpr hnull)
    fun _ _ => rfl
  rw [hraw]
  rfl

/-- It stops where it has nothing to ask the host with. -/
theorem sign_stops
    (hhmac : requested realm .sign algorithm = some (.lit "HMAC") →
      hmacAsked realm algorithm key = none ∨ data = .other)
    (hecdsa : requested realm .sign algorithm = some (.lit "ECDSA") →
      ecdsaAsked realm algorithm key "private" = none ∨ data = .other) :
    Stops crates (sign (hosted realm crates) algorithm key data) trace := by
  rw [sign_eq]
  refine bySignature_stops (fun hname => ecdsa_stops (hecdsa hname) fun digest curve t h => ?_)
    fun hname => hmac_stops (hhmac hname) fun hash bytes h => ?_
  · exact .rawOf fun hraw => .throws (.ecdsaSign curve key.raw digest)
      (crates.nativeEcdsaSign_throws (hraw ▸ h) digest) _
  · exact .throws (.hmac (.str hash) key.raw (.str (.hex bytes)) none)
      (crates.nativeHmac_throws h hash (.str (.hex bytes)) none) _

/-! ## `verify` -/

theorem verify_hmac {hash material : Text} (bytes tag : List UInt8)
    (hname : requested realm .verify algorithm = some (.lit "HMAC"))
    (h : hmacAsked realm algorithm key = some (hash, material)) :
    Ends crates (verify (hosted realm crates) algorithm key (.bytes tag) (.bytes bytes)) trace
      (crates.hmacAnswer hash material bytes (some tag)) settleFlag := by
  obtain ⟨htext, name, rfl, hrun⟩ := run_hmac bytes h
  rw [verify_eq]
  exact .native realm (.hmac (.str name) key.raw (.str (.hex bytes)) (some (.str (.hex tag))))
    (crates.nativeHmac_eq htext bytes (some tag)) ((bySignature_hmac hname).trans (hrun _))
    (List.forall_mem_nil _) fun _ _ => rfl

theorem verify_ecdsa {hash : Hash} {curve material : Text} (bytes tag : List UInt8)
    (hname : requested realm .verify algorithm = some (.lit "ECDSA"))
    (h : ecdsaAsked realm algorithm key "public" = some (hash, curve, material)) :
    Ends crates (verify (hosted realm crates) algorithm key (.bytes tag) (.bytes bytes)) trace
      (crates.verifyAnswer curve material (crates.digest hash bytes) tag) settleFlag := by
  obtain ⟨hmaterial, name, value, hvalue, hnull, hrun⟩ := run_ecdsa bytes h
  obtain ⟨hraw, htext⟩ := rawOf_material hmaterial
  rw [verify_eq]
  refine .native realm (.ecdsaVerify value key.raw _ _)
    (crates.nativeEcdsaVerify_eq hvalue htext _ tag)
    ((bySignature_ecdsa hname).trans ((hrun _ _).trans ?_)) (List.forall_mem_singleton.mpr hnull)
    fun _ _ => rfl
  rw [hraw]
  rfl

theorem verify_stops
    (hhmac : requested realm .verify algorithm = some (.lit "HMAC") →
      hmacAsked realm algorithm key = none ∨ data = .other)
    (hecdsa : requested realm .verify algorithm = some (.lit "ECDSA") →
      ecdsaAsked realm algorithm key "public" = none ∨ data = .other) :
    Stops crates (verify (hosted realm crates) algorithm key signature data) trace := by
  rw [verify_eq]
  refine bySignature_stops (fun hname => ecdsa_stops (hecdsa hname) fun digest curve t h => ?_)
    fun hname => hmac_stops (hhmac hname) fun hash bytes h => .js fun tag _ => ?_
  · exact .rawOf fun hraw => .js fun tag _ =>
      .throws (.ecdsaVerify curve key.raw digest (.str (.hex tag)))
        (crates.nativeEcdsaVerify_throws (hraw ▸ h) digest _) _
  · exact .throws (.hmac (.str hash) key.raw (.str (.hex bytes)) (some (.str (.hex tag))))
      (crates.nativeHmac_throws h hash (.str (.hex bytes)) (some (.str (.hex tag)))) _

/-- It stops without a signature that is bytes. -/
theorem verify_other :
    Stops crates (verify (hosted realm crates) algorithm key .other data) trace := by
  have hother {f : List UInt8 → Subtle Bool} {trace : List NativeCall} :
      Stops crates (js (bytesOfSource .other) >>= f) trace := .js fun tag htag => by cases htag
  rw [verify_eq]
  refine bySignature_stops (fun _ => ?_) fun _ =>
    .js fun hash _ => .rawOf fun _ => .js fun bytes _ => hother
  rcases hasked : ecdsaAsked realm algorithm key "public" with - | ⟨hash, curve, material⟩
  · exact ecdsa_stops (.inl hasked) fun digest curve t _ => .rawOf fun _ => hother
  cases data with
  | other =>
    exact ecdsa_stops (.inr rfl) fun digest curve t _ => .rawOf fun _ => hother
  | bytes bytes =>
    obtain ⟨-, name, value, -, hnull, hrun⟩ := run_ecdsa bytes hasked
    exact .after (.rawOf fun _ => hother) (hrun _ _) hnull

end branches

end Subtle

end NovaRuntime
