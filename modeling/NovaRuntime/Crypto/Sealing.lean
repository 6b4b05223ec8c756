import NovaRuntime.Lib.Aead
import NovaRuntime.Lib.Run
import NovaRuntime.Crypto.Subtle

/-!
# What AES-GCM opens

The cipher of the host is an ideal one: it opens what was sealed in the run, under the key, nonce and
associated data that the native passed.  A run is any sequence of `encrypt` and `decrypt` calls, with
any keys and arguments.

* `Names`       the key, iv, additional data and bytes that a call names, if it names 256 and 96 bits;
* `Encrypted`   what a log shows as encrypted, and as what;
* `Honest`      a call of `decrypt` gives what was encrypted under all it names, and nothing else;
* `Distinct`    the ciphertext was made with this additional data, if it was made at all.
-/

namespace NovaRuntime
open Lib

abbrev Sealed := Aead.Sealed (List UInt8) (List UInt8) (List UInt8) (List UInt8) (List UInt8)

/-- the encryption of the cipher, by key, nonce, associated data and message -/
abbrev Sealer :=
  List UInt8 → List UInt8 → List UInt8 → List UInt8 → Option (List UInt8)

def hexBytes : JsVal → Option (List UInt8)
  | .str s => (fromHex (decodeLossy s.units)).join
  | _ => none

/-- what a native call has the cipher seal -/
def NativeCall.sealed (encrypt : Sealer) : NativeCall → Option Sealed
  | .aesGcm .encrypt key iv data => do
    let k ← hexBytes key
    let n ← hexBytes iv
    let m ← hexBytes data
    if k.length = 32 ∧ n.length = 12 then
      (encrypt k n [] m).map fun c => ⟨k, n, [], m, c⟩
    else none
  | _ => none

/-- the ideal cipher, after some messages were sealed -/
def idealAes (encrypt : Sealer) (log : List Sealed) : Aes256Gcm where
  encrypt k n payload := encrypt k n payload.aad payload.msg
  decrypt k n payload := Aead.decrypt log k n payload.aad payload.msg

/-- a realm whose host has the ideal cipher -/
def idealRealm (base : Realm) (crates : CryptoCrates) (encrypt : Sealer) : Realm :=
  { base with
    native := fun trace call =>
      { crates with aes := idealAes encrypt (trace.filterMap (NativeCall.sealed encrypt)) }.answer call }

/-- a call of `encrypt` or `decrypt`, with a key whose material is a string -/
structure SealCall where
  op : AesOp
  algorithm : Algorithm
  key : CryptoKey
  raw : JsString
  hraw : key.raw = .str raw
  data : Source

structure SealEntry where
  call : SealCall
  outcome : Except Fault (List UInt8)

/-- the natives called so far, and the calls with their outcomes, newest first -/
structure Sealing where
  trace : List NativeCall
  log : List SealEntry

namespace Sealing
variable (realm : Realm)

def start : Sealing := ⟨[], []⟩

def ended (s : Sealing) (call : SealCall) : Except Fault (List UInt8) × List NativeCall :=
  Subtle.run (Subtle.aes realm call.op call.algorithm call.key call.data) s.trace

def step (s : Sealing) (call : SealCall) : Option Sealing :=
  some ⟨(s.ended realm call).2, ⟨call, (s.ended realm call).1⟩ :: s.log⟩

/-- a call names this 256-bit key, 12-byte iv, additional data and data -/
structure Names (call : SealCall) (k iv aad data : List UInt8) : Prop where
  hname : Subtle.algorithmName realm call.algorithm 0 = .ok (.lit "AES-GCM")
  hkey : hexBytes (.str call.raw) = some k
  keySize : k.length = 32
  hiv : call.algorithm.iv = .ok (.bytes iv)
  ivSize : iv.length = 12
  /-- absent counts as empty -/
  haad : aad = call.algorithm.additionalData.getD []
  hdata : call.data = .bytes data

/-- `encrypt` gave the ciphertext `c` for the plaintext `p` under these parameters -/
def Encrypted (log : List SealEntry) (k iv aad p c : List UInt8) : Prop :=
  ∃ e ∈ log, e.call.op = .encrypt ∧ Names realm e.call k iv aad p ∧ e.outcome = .ok c

/-- `decrypt` gives the plaintext of a ciphertext made under all that the call names, and rejects
any other ciphertext. -/
def Honest (e : SealEntry) (earlier : List SealEntry) : Prop :=
  e.call.op = .decrypt → ∀ k iv aad c, Names realm e.call k iv aad c →
    (∀ p, Encrypted realm earlier k iv aad p c → e.outcome = .ok p) ∧
      ((∀ p, ¬Encrypted realm earlier k iv aad p c) →
        ∃ message, e.outcome = .error (.exception (txt "OperationError") message))

/-- A ciphertext that was made under the key and iv of this call was made with its additional data
too. -/
def Distinct (s : Sealing) (call : SealCall) : Prop :=
  call.op = .decrypt → ∀ k iv aad c, Names realm call k iv aad c →
    (∃ aad' p, Encrypted realm s.log k iv aad' p c) → ∃ p, Encrypted realm s.log k iv aad p c

end Sealing

/-! ## the native -/

theorem hexBytes_hex (bytes : List UInt8) : hexBytes (.str (.hex bytes)) = some bytes := by
  have h := arg_hex bytes
  have hdecode : decodeLossy (JsString.hex bytes).units = toHex bytes :=
    Except.ok.inj (Option.some.inj h)
  rw [hexBytes, hdecode, fromHex_toHex]
  rfl

/-- the answer of the native for what the cipher gives -/
def cipherAnswer : Option (List UInt8) → JsVal
  | none => .bool false
  | some out => .str (.hex out)

/-- the cipher without associated data, which is how the native uses it -/
def Aes256Gcm.apply (aes : Aes256Gcm) (op : AesOp) (k iv data : List UInt8) :
    Option (List UInt8) :=
  match op with
  | .encrypt => aes.encrypt k iv ⟨data, []⟩
  | .decrypt => aes.decrypt k iv ⟨data, []⟩

theorem nativeAesGcm_eq (crates : CryptoCrates) (op : AesOp) (raw : JsString)
    (iv data : List UInt8) :
    (crates.nativeAesGcm op (.str raw) (.str (.hex iv)) (.str (.hex data))).run =
      (fromHex (decodeLossy raw.units)).map fun key => .ok (key.elim .null fun k =>
        if k.length = 32 ∧ iv.length = 12 then cipherAnswer (crates.aes.apply op k iv data)
        else .null) := by
  have hraw : Native.arg (.str raw) = ExceptT.mk (some (.ok (decodeLossy raw.units))) := rfl
  unfold CryptoCrates.nativeAesGcm
  rw [Native.bind_ok hraw, Native.bind_ok (arg_hex iv), Native.bind_ok (arg_hex data)]
  cases fromHex (decodeLossy raw.units) with
  | none => rfl
  | some key =>
    rw [Native.bind_ok (Native.orPanic_some rfl),
      Native.bind_ok (Native.orPanic_some (fromHex_toHex iv)),
      Native.bind_ok (Native.orPanic_some (fromHex_toHex data))]
    cases key with
    | none => rfl
    | some k =>
      simp only [Option.map_some, Option.elim_some]
      by_cases hsize : k.length = 32 ∧ iv.length = 12
      · rw [if_pos hsize, if_pos hsize]
        cases op with
        | encrypt =>
          simp only [Aes256Gcm.apply]
          cases crates.aes.encrypt k iv ⟨data, []⟩ <;> rfl
        | decrypt =>
          simp only [Aes256Gcm.apply]
          cases crates.aes.decrypt k iv ⟨data, []⟩ <;> rfl
      · rw [if_neg hsize, if_neg hsize]
        rfl

/-! ## one call -/

namespace Sealing
variable {base : Realm} {crates : CryptoCrates} {encrypt : Sealer} {trace : List NativeCall}
  {call : SealCall} {k iv aad data : List UInt8}

/-- the messages that the natives of a trace had sealed -/
def records (encrypt : Sealer) (trace : List NativeCall) : List Sealed :=
  trace.filterMap (NativeCall.sealed encrypt)

/-- the native call that a call of `encrypt` or `decrypt` makes -/
def SealCall.native (call : SealCall) (iv data : List UInt8) : NativeCall :=
  .aesGcm call.op (.str call.raw) (.str (.hex iv)) (.str (.hex data))

/-- what is left to do once the native has answered -/
def settle (realm : Realm) (out : JsVal) : Subtle (List UInt8) :=
  if out.isNull then
    .refuse "DataError" (.lit "AES-GCM here takes a 256 bit key and a 12 byte iv")
  else if out.isFalse then .refuse "OperationError" (.lit "the tag does not hold")
  else .js (Subtle.fromHex realm out)

/-- Up to the native, when the algorithm is AES-GCM and the buffers are buffers. -/
theorem aes_eq {realm : Realm}
    (hname : Subtle.algorithmName realm call.algorithm 0 = .ok (.lit "AES-GCM"))
    (hiv : call.algorithm.iv = .ok (.bytes iv)) (hdata : call.data = .bytes data) :
    Subtle.run (Subtle.aes realm call.op call.algorithm call.key call.data) trace =
      Subtle.run (Subtle.native realm (SealCall.native call iv data) >>= settle realm) trace := by
  have hiv' : call.algorithm.iv.bind bytesOfSource = .ok iv := by
    rw [hiv]
    rfl
  have hdata' : bytesOfSource call.data = .ok data := by
    rw [hdata]
    rfl
  unfold Subtle.aes
  rw [Subtle.run_js_ok trace hname, if_neg (not_not_intro rfl), Subtle.rawOf_str call.hraw, pure_bind,
    Subtle.run_js_ok trace hiv', Subtle.run_js_ok trace hdata']
  rfl

/-- the outcome for what the cipher gives -/
def outcomeOf : Option (List UInt8) → Except Fault (List UInt8)
  | none => .error (.exception (txt "OperationError") (.lit "the tag does not hold"))
  | some out => .ok out

theorem run_settle (realm : Realm) (out : Option (List UInt8)) :
    Subtle.run (settle realm (cipherAnswer out)) trace = (outcomeOf out, trace) := by
  cases out with
  | none => rfl
  | some out =>
    have hback : Subtle.fromHex realm (.str (.hex out)) = .ok out :=
      congrArg Except.ok (bytesOfHex_toHex out)
    show ((Subtle.fromHex realm (.str (.hex out))).mapError Fault.thrown, trace) = _
    rw [hback]
    rfl

/-- A call that names a key, an iv and its data gives what the cipher gives. -/
theorem run_named (h : Names (idealRealm base crates encrypt) call k iv aad data) :
    Subtle.run (Subtle.aes (idealRealm base crates encrypt) call.op call.algorithm call.key
        call.data) trace =
      (outcomeOf ((idealAes encrypt (records encrypt trace)).apply call.op k iv data),
        SealCall.native call iv data :: trace) := by
  have hraw : fromHex (decodeLossy call.raw.units) = some (some k) :=
    Option.join_eq_some_iff.mp h.hkey
  have hsize : k.length = 32 ∧ iv.length = 12 := ⟨h.keySize, h.ivSize⟩
  have hanswer : ((idealRealm base crates encrypt).native trace
      (SealCall.native call iv data)).run = some (.ok (cipherAnswer
        ((idealAes encrypt (records encrypt trace)).apply call.op k iv data))) := by
    refine (nativeAesGcm_eq { crates with aes := idealAes encrypt (records encrypt trace) }
      call.op call.raw iv data).trans ?_
    rw [hraw, Option.map_some, Option.elim_some, if_pos hsize]
  rw [aes_eq h.hname h.hiv h.hdata, Subtle.run_bind, Subtle.run_native_ok _ trace hanswer]
  exact run_settle _ _

theorem bytesOfSource_ok {source : Source} (h : bytesOfSource source = .ok data) :
    source = .bytes data := by
  cases source with
  | bytes b => rw [Except.ok.inj h]
  | other => cases h

theorem sealed_none (h : ∀ k, hexBytes (.str call.raw) = some k →
      ¬(k.length = 32 ∧ iv.length = 12)) :
    (SealCall.native call iv data).sealed encrypt = none := by
  unfold SealCall.native
  cases call.op with
  | decrypt => rfl
  | encrypt =>
    simp only [NativeCall.sealed, hexBytes_hex, Option.bind_eq_bind, Option.bind_some]
    cases hkey : hexBytes (.str call.raw) with
    | none => rfl
    | some k => exact if_neg (h k hkey)

/-- The native refuses a key or sizes that are not right, and nothing is sealed. -/
theorem native_fails (call : SealCall) (iv data : List UInt8) (trace : List NativeCall)
    (f : JsVal → Subtle (List UInt8)) (hf : ∀ trace, ∃ fault, Subtle.run (f .null) trace =
      (.error fault, trace))
    (hsize : ∀ k, hexBytes (.str call.raw) = some k → ¬(k.length = 32 ∧ iv.length = 12)) :
    ∃ fault t, Subtle.run (Subtle.native (idealRealm base crates encrypt)
        (SealCall.native call iv data) >>= f) trace = (.error fault, t) ∧
      records encrypt t = records encrypt trace := by
  have hrecords : records encrypt (SealCall.native call iv data :: trace) =
      records encrypt trace := List.filterMap_cons_none (sealed_none hsize)
  have hanswer := nativeAesGcm_eq
    { crates with aes := idealAes encrypt (records encrypt trace) } call.op call.raw iv data
  rw [Subtle.run_bind]
  cases hraw : fromHex (decodeLossy call.raw.units) with
  | none =>
    rw [hraw] at hanswer
    rw [Subtle.run_native_crash _ trace hanswer]
    exact ⟨_, _, rfl, hrecords⟩
  | some key =>
    rw [hraw, Option.map_some] at hanswer
    have hnull : key.elim JsVal.null (fun k => if k.length = 32 ∧ iv.length = 12 then
        cipherAnswer ((idealAes encrypt (records encrypt trace)).apply call.op k iv data)
        else .null) = .null := by
      cases key with
      | none => rfl
      | some k => exact if_neg (hsize k (by rw [hexBytes, hraw]; rfl))
    rw [hnull] at hanswer
    rw [Subtle.run_native_ok _ trace hanswer]
    obtain ⟨fault, hfault⟩ := hf (SealCall.native call iv data :: trace)
    exact ⟨fault, _, hfault, hrecords⟩

/-- A call that does not name a key, an iv and data seals nothing, and fails. -/
theorem run_unnamed (trace : List NativeCall)
    (h : ∀ k iv aad data, ¬Names (idealRealm base crates encrypt) call k iv aad data) :
    ∃ fault t, Subtle.run (Subtle.aes (idealRealm base crates encrypt) call.op call.algorithm
        call.key call.data) trace = (.error fault, t) ∧
      records encrypt t = records encrypt trace := by
  unfold Subtle.aes
  cases hname : Subtle.algorithmName (idealRealm base crates encrypt) call.algorithm 0 with
  | error e => exact ⟨_, _, Subtle.run_js_error trace rfl _, rfl⟩
  | ok name =>
    rw [Subtle.run_js_ok trace rfl]
    by_cases haes : name = .lit "AES-GCM"
    swap
    · rw [if_pos haes]
      exact ⟨_, _, rfl, rfl⟩
    rw [if_neg (not_not_intro haes), Subtle.rawOf_str call.hraw, pure_bind]
    cases hsource : call.algorithm.iv with
    | error e => exact ⟨_, _, Subtle.run_js_error trace rfl _, rfl⟩
    | ok source =>
      cases hiv : bytesOfSource source with
      | error e => exact ⟨_, _, Subtle.run_js_error trace hiv _, rfl⟩
      | ok iv =>
        have hread : (Except.ok source : Js Source).bind bytesOfSource = .ok iv := hiv
        rw [Subtle.run_js_ok trace hread]
        cases hdata : bytesOfSource call.data with
        | error e => exact ⟨_, _, Subtle.run_js_error trace rfl _, rfl⟩
        | ok data =>
          rw [Subtle.run_js_ok trace rfl]
          refine native_fails call iv data trace _ (fun _ => ⟨_, rfl⟩) fun k hk hsize => ?_
          exact h k iv _ data ⟨by rw [hname, haes], hk, hsize.1,
            by rw [hsource, bytesOfSource_ok hiv], hsize.2, rfl, bytesOfSource_ok hdata⟩

/-! ## a run -/

section runs
variable {realm : Realm} {s s' t : Sealing} {e : SealEntry} {log : List SealEntry}
  {p c : List UInt8}

theorem Names.unique {k' iv' aad' data' : List UInt8} (h : Names realm call k iv aad data)
    (h' : Names realm call k' iv' aad' data') : k' = k ∧ iv' = iv ∧ aad' = aad ∧ data' = data := by
  have hk := h'.hkey.symm.trans h.hkey
  have hiv := h'.hiv.symm.trans h.hiv
  have hdata := h'.hdata.symm.trans h.hdata
  cases hk
  cases hiv
  cases hdata
  exact ⟨rfl, rfl, by rw [h.haad, h'.haad], rfl⟩

theorem encrypted_cons : Encrypted realm (e :: log) k iv aad p c ↔
    (e.call.op = .encrypt ∧ Names realm e.call k iv aad p ∧ e.outcome = .ok c) ∨
      Encrypted realm log k iv aad p c := by
  simp only [Encrypted, List.mem_cons, or_and_right, exists_or, exists_eq_left]

theorem recorded (trace : List NativeCall) :
    Aead.Recorded encrypt (records encrypt trace) := by
  intro r hr
  obtain ⟨call, -, hcall⟩ := List.mem_filterMap.mp hr
  cases call with
  | aesGcm op key iv data =>
    cases op with
    | decrypt => cases hcall
    | encrypt =>
      simp only [NativeCall.sealed, Option.bind_eq_bind, Option.bind_eq_some_iff] at hcall
      obtain ⟨k, -, n, -, m, -, hcall⟩ := hcall
      split at hcall
      · obtain ⟨c, hc, rfl⟩ := Option.map_eq_some_iff.mp hcall
        exact hc
      · cases hcall
  | _ => cases hcall

/-- the cipher has sealed what the log shows as encrypted -/
def Kept (base : Realm) (crates : CryptoCrates) (encrypt : Sealer) (s : Sealing) : Prop :=
  ∀ k iv p c, ⟨k, iv, [], p, c⟩ ∈ records encrypt s.trace ↔
    ∃ aad, Encrypted (idealRealm base crates encrypt) s.log k iv aad p c

theorem outcomeOf_ok {out : Option (List UInt8)} : outcomeOf out = .ok c ↔ out = some c := by
  cases out <;> simp [outcomeOf]

theorem mem_sealed (h : Names realm call k iv aad data) {k' iv' p c : List UInt8} :
    (SealCall.native call iv data).sealed encrypt = some ⟨k', iv', [], p, c⟩ ↔
      call.op = .encrypt ∧ k' = k ∧ iv' = iv ∧ p = data ∧ encrypt k iv [] data = some c := by
  unfold SealCall.native
  cases call.op with
  | decrypt => simp [NativeCall.sealed]
  | encrypt =>
    simp only [NativeCall.sealed, hexBytes_hex, h.hkey, Option.bind_eq_bind, Option.bind_some,
      if_pos (And.intro h.keySize h.ivSize), Option.map_eq_some_iff, Aead.Sealed.mk.injEq,
      true_and]
    constructor
    · rintro ⟨c', hc, rfl, rfl, rfl, rfl⟩
      exact ⟨rfl, rfl, rfl, hc⟩
    · rintro ⟨rfl, rfl, rfl, hc⟩
      exact ⟨c, hc, rfl, rfl, rfl, rfl⟩

/-- A call either names a key, an iv and its data, and has the outcome of the cipher, or it fails and
seals nothing. -/
theorem step_cases (h : s.step (idealRealm base crates encrypt) call = some s') :
    (∃ k iv aad data, Names (idealRealm base crates encrypt) call k iv aad data ∧
        s' = ⟨SealCall.native call iv data :: s.trace, ⟨call, outcomeOf
          ((idealAes encrypt (records encrypt s.trace)).apply call.op k iv data)⟩ :: s.log⟩) ∨
      ((∀ k iv aad data, ¬Names (idealRealm base crates encrypt) call k iv aad data) ∧
        ∃ fault t, s' = ⟨t, ⟨call, .error fault⟩ :: s.log⟩ ∧
          records encrypt t = records encrypt s.trace) := by
  have hs' := Option.some.inj h
  by_cases hnames : ∃ k iv aad data, Names (idealRealm base crates encrypt) call k iv aad data
  · obtain ⟨k, iv, aad, data, hnames⟩ := hnames
    rw [ended, run_named hnames] at hs'
    exact .inl ⟨k, iv, aad, data, hnames, hs'.symm⟩
  · simp only [not_exists] at hnames
    obtain ⟨fault, t, hrun, hrecords⟩ := run_unnamed s.trace hnames
    rw [ended, hrun] at hs'
    exact .inr ⟨hnames, fault, t, hs'.symm, hrecords⟩

theorem kept_start : Kept base crates encrypt start := by
  intro k iv p c
  simp [start, records, Encrypted]

theorem Kept.step (hs : Kept base crates encrypt s)
    (h : s.step (idealRealm base crates encrypt) call = some s') :
    Kept base crates encrypt s' := by
  intro k' iv' p c
  obtain ⟨k, iv, aad, data, hnames, rfl⟩ | ⟨hnames, fault, t, rfl, hrecords⟩ := step_cases h
  · have hnew : (SealCall.native call iv data).sealed encrypt = some ⟨k', iv', [], p, c⟩ ↔
        ∃ aad', call.op = .encrypt ∧
          Names (idealRealm base crates encrypt) call k' iv' aad' p ∧
          outcomeOf ((idealAes encrypt (records encrypt s.trace)).apply call.op k iv data) =
            .ok c := by
      rw [mem_sealed hnames, outcomeOf_ok]
      constructor
      · rintro ⟨hop, rfl, rfl, rfl, hc⟩
        refine ⟨aad, hop, hnames, ?_⟩
        rw [hop]
        exact hc
      · rintro ⟨aad', hop, hnames', hc⟩
        obtain ⟨rfl, rfl, -, rfl⟩ := hnames.unique hnames'
        rw [hop] at hc
        exact ⟨hop, rfl, rfl, rfl, hc⟩
    simp only [encrypted_cons, exists_or, ← hs k' iv' p c, ← hnew]
    simp only [records, List.mem_filterMap, List.mem_cons, or_and_right, exists_or, exists_eq_left]
  · simp only [encrypted_cons, exists_or, hrecords, hs k' iv' p c]
    refine ⟨.inr, fun h => h.resolve_left ?_⟩
    rintro ⟨aad', -, hnames', -⟩
    exact hnames _ _ _ _ hnames'

/-- `decrypt` is honest exactly about the ciphertexts that were made with its additional data, or not
at all. -/
theorem honest_step (hbinding : Aead.Binding encrypt) (hs : Kept base crates encrypt s)
    (h : s.step (idealRealm base crates encrypt) call = some s') :
    Logged (Honest (idealRealm base crates encrypt)) s'.log ↔
      Logged (Honest (idealRealm base crates encrypt)) s.log ∧
        Distinct (idealRealm base crates encrypt) s call := by
  rw [and_comm]
  obtain ⟨k, iv, aad, data, hnames, rfl⟩ | ⟨hnames, fault, t, rfl, -⟩ := step_cases h
  · refine and_congr_left fun _ => ?_
    have hopen (p : List UInt8) :
        Aead.decrypt (records encrypt s.trace) k iv [] data = some p ↔
          ∃ aad, Encrypted (idealRealm base crates encrypt) s.log k iv aad p data := by
      rw [Aead.decrypt_eq_some hbinding (recorded s.trace), hs k iv p data]
    have happly (hop : call.op = .decrypt) :
        (idealAes encrypt (records encrypt s.trace)).apply call.op k iv data =
          Aead.decrypt (records encrypt s.trace) k iv [] data := by
      rw [hop]
      rfl
    constructor
    · intro honest hop k' iv' aad' data' hnames' ⟨aad'', p, hp⟩
      obtain ⟨rfl, rfl, rfl, rfl⟩ := hnames.unique hnames'
      by_contra hnone
      obtain ⟨message, hm⟩ := (honest hop _ _ _ _ hnames).2 fun p hp => hnone ⟨p, hp⟩
      rw [happly hop, (hopen p).mpr ⟨aad'', hp⟩] at hm
      cases hm
    · intro hdistinct hop k' iv' aad' data' hnames'
      obtain ⟨rfl, rfl, rfl, rfl⟩ := hnames.unique hnames'
      rw [happly hop]
      refine ⟨fun p hp => ?_, fun hnone => ?_⟩
      · rw [(hopen p).mpr ⟨_, hp⟩]
        rfl
      · have hout : Aead.decrypt (records encrypt s.trace) k' iv' [] data' = none := by
          rw [Option.eq_none_iff_forall_ne_some]
          intro p hp
          obtain ⟨q, hq⟩ := hdistinct hop _ _ _ _ hnames ⟨_, p, ((hopen p).mp hp).choose_spec⟩
          exact hnone q hq
        rw [hout]
        exact ⟨_, rfl⟩
  · refine and_congr_left fun _ => iff_of_true ?_ ?_
    · exact fun _ _ _ _ _ hnames' => absurd hnames' (hnames _ _ _ _)
    · exact fun _ _ _ _ _ hnames' => absurd hnames' (hnames _ _ _ _)

/-- In a run of calls of any kind, with any keys and arguments, every `decrypt` gives exactly what was
encrypted under all that it names, exactly when every ciphertext it is given that was made under its
key and iv was made with its additional data. -/
theorem decrypt_is_honest (base : Realm) (crates : CryptoCrates) (encrypt : Sealer)
    (hbinding : Aead.Binding encrypt) (calls : List SealCall) (t : Sealing)
    (h : run (step (idealRealm base crates encrypt)) start calls = some t) :
    Logged (Honest (idealRealm base crates encrypt)) t.log ↔
      Meets (step (idealRealm base crates encrypt)) (Distinct (idealRealm base crates encrypt))
        start calls :=
  run_iff_meets _ (A := fun _ _ => True) (fun _ _ _ hs _ hstep => hs.step hstep)
    (fun _ _ _ hs _ hstep => honest_step hbinding hs hstep) kept_start trivial
    (meets_of_forall _ (fun _ _ => trivial) _ _) h

/-- the tag of AES-256-GCM under the zero key and nonce for no data and no associated data -/
def zeroTag : List UInt8 :=
  [0x53, 0x0f, 0x8a, 0xfb, 0xc7, 0x45, 0x36, 0xb9, 0xa9, 0x63, 0xb4, 0xf1, 0xc4, 0xcb, 0x73, 0x8b]

/-- an encryption that is that of AES-256-GCM where `zeroTag` is the tag -/
def zeroSealer : Sealer := fun _ _ _ m => some (m ++ zeroTag)

theorem zeroSealer_binding : Aead.Binding zeroSealer := by
  intro k n a m m' c h h'
  exact List.append_cancel_right (Option.some.inj (h.trans h'.symm))

def zeroCall (op : AesOp) (additionalData : Option (List UInt8)) (data : List UInt8) : SealCall where
  op := op
  algorithm := .plain (.lit "AES-GCM") .undefined (.bytes (List.replicate 12 0)) additionalData
  key := ⟨.str (.lit "secret"), fun _ => .ok .undefined, .bool false,
    .str (.hex (List.replicate 32 0))⟩
  raw := .hex (List.replicate 32 0)
  hraw := rfl
  data := .bytes data

theorem decrypt_is_honest_zero :
    ∃ t, run (step (idealRealm (.ascii .inert) .inert zeroSealer)) start
        [zeroCall .encrypt none [], zeroCall .decrypt none zeroTag] = some t ∧
      (Logged (Honest (idealRealm (.ascii .inert) .inert zeroSealer)) t.log ↔
        Meets (step (idealRealm (.ascii .inert) .inert zeroSealer))
          (Distinct (idealRealm (.ascii .inert) .inert zeroSealer)) start
          [zeroCall .encrypt none [], zeroCall .decrypt none zeroTag]) :=
  ⟨_, rfl, decrypt_is_honest _ _ _ zeroSealer_binding _ _ rfl⟩

theorem names_zeroCall (op : AesOp) (additionalData : Option (List UInt8)) (data : List UInt8) :
    Names (idealRealm (.ascii .inert) .inert zeroSealer) (zeroCall op additionalData data)
      (List.replicate 32 0) (List.replicate 12 0) (additionalData.getD []) data where
  hname := rfl
  hkey := hexBytes_hex _
  keySize := rfl
  hiv := rfl
  ivSize := rfl
  haad := rfl
  hdata := rfl

/-- What was encrypted without additional data decrypts with any. -/
theorem additional_data_is_ignored :
    ∃ t, run (step (idealRealm (.ascii .inert) .inert zeroSealer)) start
        [zeroCall .encrypt none [], zeroCall .decrypt (some [1]) zeroTag] = some t ∧
      ¬Logged (Honest (idealRealm (.ascii .inert) .inert zeroSealer)) t.log := by
  refine ⟨_, rfl, fun hlog => ?_⟩
  have hnone (p : List UInt8) : ¬Encrypted (idealRealm (.ascii .inert) .inert zeroSealer)
      [⟨zeroCall .encrypt none [], .ok zeroTag⟩] (List.replicate 32 0) (List.replicate 12 0) [1] p
      zeroTag := by
    intro hp
    rcases encrypted_cons.mp hp with ⟨-, hnames, -⟩ | ⟨e, he, -⟩
    · obtain ⟨-, -, haad, -⟩ := (names_zeroCall .encrypt none []).unique hnames
      cases haad
    · cases he
  obtain ⟨message, hm⟩ :=
    (hlog.1 rfl _ _ _ _ (names_zeroCall .decrypt (some [1]) zeroTag)).2 hnone
  cases hm

end runs

end Sealing

end NovaRuntime
