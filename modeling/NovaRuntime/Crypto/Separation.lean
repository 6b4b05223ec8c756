import NovaRuntime.Crypto.Keys

/-!
# Which keys an operation uses

* `perform`     an operation with a key;
* `requested`   the algorithm name an operation acts on;
* `Hands`       an operation passes some material to the host;
* `Separated`   material goes to the host only for the algorithm of its key, and any other use is
                refused.
-/

namespace NovaRuntime
open Lib

/-- the material a call passes -/
def NativeCall.material : NativeCall → Option JsVal
  | .hmac _ key _ _ | .aesGcm _ key _ _ | .ecdsaSign _ key _ | .ecdsaVerify _ key _ _ => some key
  | .digest _ _ | .ecdsaGenerate _ | .ecdsaCheck _ _ => none

inductive KeyOp where
  | sign | verify | encrypt | decrypt
  deriving DecidableEq

namespace KeyOp

def takes (op : KeyOp) (name : JsString) : Bool :=
  match op with
  | .sign | .verify => name = .lit "HMAC" || name = .lit "ECDSA"
  | .encrypt | .decrypt => name = .lit "AES-GCM"

/-- the type of key an operation needs, which matters for ECDSA -/
def fits (op : KeyOp) : KeyKind → Bool
  | .ecdsaPublic _ => op = .verify
  | .ecdsaPrivate _ => op = .sign
  | .hmac _ | .aesGcm _ => true

end KeyOp

namespace Subtle
variable (realm : Realm)

/-- an operation with a key; `signature` is for `verify` -/
def perform (op : KeyOp) (algorithm : Algorithm) (key : CryptoKey) (data signature : Source) :
    Subtle (List UInt8 ⊕ Bool) :=
  match op with
  | .sign => .inl <$> sign realm algorithm key data
  | .verify => .inr <$> verify realm algorithm key signature data
  | .encrypt => .inl <$> aes realm .encrypt algorithm key data
  | .decrypt => .inl <$> aes realm .decrypt algorithm key data

/-- The algorithm name an operation acts on.  `sign` and `verify` read the name again when it is not
`ECDSA`; there is none if a read throws, or if only the second read says `ECDSA`. -/
def requested (op : KeyOp) (algorithm : Algorithm) : Option JsString :=
  match op with
  | .sign | .verify => do
    let name ← (algorithmName realm algorithm 0).toOption
    if name = .lit "ECDSA" then some name
    else (algorithmName realm algorithm 1).toOption.filter (· ≠ .lit "ECDSA")
  | .encrypt | .decrypt => (algorithmName realm algorithm 0).toOption

variable {α β : Type}

/-- the operation passes this material to the host -/
def Hands (raw : JsVal) (m : Subtle α) (trace : List NativeCall) : Prop :=
  ∃ new call, (run m trace).2 = new ++ trace ∧ call ∈ new ∧ call.material = some raw

/-- what an operation does with the material of a key -/
structure Separated (op : KeyOp) (algorithm : Algorithm) (kind : KeyKind) (raw : JsVal)
    (m : Subtle α) (trace : List NativeCall) : Prop where
  /-- material is used only for the key's own algorithm, by the operation its type is for -/
  handed : Hands raw m trace →
    requested realm op algorithm = some kind.name ∧ op.fits kind = true
  /-- any other use is refused, by the check of the key if the operation takes the algorithm -/
  refused : ¬(requested realm op algorithm = some kind.name ∧ op.fits kind = true) →
    ¬Hands raw m trace ∧ ∃ fault, (run m trace).1 = .error fault ∧
      ∀ name, requested realm op algorithm = some name → op.takes name = true →
        ∃ message, fault = .exception (txt "InvalidAccessError") message

/-! ## operations that use material -/

section hands
variable {realm} {raw : JsVal} {trace : List NativeCall}

/-- an operation that calls no native -/
def Quiet (m : Subtle α) : Prop := ∀ trace, (run m trace).2 = trace

theorem Quiet.js (x : Js α) : Quiet (js x) := fun _ => rfl
theorem Quiet.pure (a : α) : Quiet (pure a : Subtle α) := fun _ => rfl
theorem Quiet.refuse (name : String) (message : JsString) :
    Quiet (refuse name message : Subtle α) := fun _ => rfl

theorem Quiet.ite {p : Prop} [Decidable p] {m m' : Subtle α} (h : Quiet m) (h' : Quiet m') :
    Quiet (if p then m else m') := by
  split
  · exact h
  · exact h'

theorem not_hands_of_run {m : Subtle α} {result : Except Fault α}
    (h : run m trace = (result, trace)) : ¬Hands raw m trace := by
  rintro ⟨new, call, hnew, hmem, -⟩
  rw [h] at hnew
  obtain rfl := List.self_eq_append_left.mp hnew
  cases hmem

/-- the operation uses the material, or a conversion throws before -/
def Reaches (raw : JsVal) (m : Subtle α) (trace : List NativeCall) : Prop :=
  Hands raw m trace ∨ ∃ e, run m trace = (.error (.thrown e), trace)

theorem Reaches.js {x : Js α} {f : α → Subtle β} (h : ∀ a, x = .ok a → Reaches raw (f a) trace) :
    Reaches raw (Subtle.js x >>= f) trace := by
  cases hx : x with
  | error e => exact .inr ⟨e, run_js_error trace rfl f⟩
  | ok a =>
    unfold Reaches Hands
    rw [run_js_ok trace rfl f]
    exact h a hx

theorem Reaches.native {call : NativeCall} {f : JsVal → Subtle β}
    (hcall : call.material = some raw) (hf : ∀ a, Quiet (f a)) :
    Reaches raw (Subtle.native realm call >>= f) trace := by
  refine .inl ⟨[call], call, ?_, List.mem_cons_self, hcall⟩
  have hnative : (run (Subtle.native realm call) trace).2 = call :: trace := rfl
  rw [run_bind]
  cases h : run (Subtle.native realm call) trace with
  | mk result t =>
    rw [h] at hnative
    subst hnative
    cases result with
    | error e => rfl
    | ok a => exact hf a _

theorem Reaches.map {m : Subtle α} (f : α → β) (h : Reaches raw m trace) :
    Reaches raw (f <$> m) trace := by
  rcases h with ⟨new, call, hnew, hmem, hcall⟩ | ⟨e, he⟩
  · exact .inl ⟨new, call, by rw [run_map]; exact hnew, hmem, hcall⟩
  · exact .inr ⟨e, by rw [run_map, he]; rfl⟩

end hands

/-! ## the four operations -/

section operations
variable {realm} {algorithm : Algorithm} {kind : KeyKind} {key : CryptoKey} {raw : JsString}
  {name : JsString} {trace : List NativeCall}

/-- what `sign` and `verify` share: the choice by the name -/
def bySignature (realm : Realm) (algorithm : Algorithm) (ecdsa hmac : Subtle α)
    (message : JsString) : Subtle α := do
  if (← js (algorithmName realm algorithm 0)) = .lit "ECDSA" then ecdsa
  else if (← js (algorithmName realm algorithm 1)) ≠ .lit "HMAC" then
    refuse "NotSupportedError" message
  else hmac

variable (realm algorithm trace) in
/-- The name that is asked for chooses the branch. -/
theorem bySignature_cases (ecdsa hmac : Subtle α) (message : JsString) :
    (requested realm .sign algorithm = some (.lit "ECDSA") ∧
        run (bySignature realm algorithm ecdsa hmac message) trace = run ecdsa trace) ∨
      (requested realm .sign algorithm = some (.lit "HMAC") ∧
        run (bySignature realm algorithm ecdsa hmac message) trace = run hmac trace) ∨
      ((∀ name, requested realm .sign algorithm = some name → KeyOp.takes .sign name = false) ∧
        ∃ fault, run (bySignature realm algorithm ecdsa hmac message) trace =
          (.error fault, trace)) := by
  unfold bySignature requested
  cases h0 : algorithmName realm algorithm 0 with
  | error e => exact .inr (.inr ⟨nofun, .thrown e, run_js_error trace rfl _⟩)
  | ok first =>
    rw [run_js_ok trace rfl]
    by_cases hfirst : first = .lit "ECDSA"
    · exact .inl ⟨by simp [Except.toOption, hfirst], by rw [if_pos hfirst]⟩
    · rw [if_neg hfirst]
      cases h1 : algorithmName realm algorithm 1 with
      | error e =>
        refine .inr (.inr ⟨?_, .thrown e, run_js_error trace rfl _⟩)
        simp [Except.toOption, hfirst]
      | ok second =>
        rw [run_js_ok trace rfl]
        by_cases hsecond : second = .lit "HMAC"
        · refine .inr (.inl ⟨?_, by rw [if_neg (not_not_intro hsecond)]⟩)
          subst hsecond
          simp only [Except.toOption, Option.bind_eq_bind, Option.bind_some, if_neg hfirst]
          rfl
        · refine .inr (.inr ⟨fun name hname => ?_, _, by rw [if_pos hsecond]; rfl⟩)
          simp only [Except.toOption, Option.bind_eq_bind, Option.bind_some, if_neg hfirst,
            Option.filter_eq_some_iff, Option.some.injEq, decide_eq_true_eq] at hname
          obtain ⟨rfl, hname⟩ := hname
          simp [KeyOp.takes, hsecond, hname]

theorem sign_eq (data : Source) :
    sign realm algorithm key data =
      bySignature realm algorithm
        (do
          let (digest, curve) ← ecdsaDigest realm "private" "sign" algorithm key data
          let raw ← rawOf key
          js (fromHex realm (← native realm (.ecdsaSign curve raw digest))))
        (do
          let hash ← js (hashOf realm algorithm key)
          let raw ← rawOf key
          let data ← js (bytesOfSource data)
          let tag ← native realm (.hmac (.str hash) raw (.str (.hex data)) none)
          if tag.isNull then
            refuse "NotSupportedError" (.lit "that is not a hash this runtime has")
          else js (fromHex realm tag))
        (.lit "only HMAC and ECDSA sign here") := rfl

theorem verify_eq (signature data : Source) :
    verify realm algorithm key signature data =
      bySignature realm algorithm
        (do
          let (digest, curve) ← ecdsaDigest realm "public" "verify" algorithm key data
          let raw ← rawOf key
          let signature ← js (bytesOfSource signature)
          return (← native realm (.ecdsaVerify curve raw digest (.str (.hex signature)))).isTrue)
        (do
          let hash ← js (hashOf realm algorithm key)
          let raw ← rawOf key
          let data ← js (bytesOfSource data)
          let signature ← js (bytesOfSource signature)
          return (← native realm
            (.hmac (.str hash) raw (.str (.hex data)) (some (.str (.hex signature))))).isTrue)
        (.lit "only HMAC and ECDSA verify here") := rfl

theorem ecdsaDigest_refuses {extractable : Bool} {usages : List JsVal} {r : JsVal}
    {wanted op : String} {data : Source} {f : JsVal × JsVal → Subtle α}
    (h : ¬(kind.name = .lit "ECDSA" ∧ kind.type = .lit wanted)) :
    ∃ message, run (ecdsaDigest realm wanted op algorithm (kind.key extractable usages r).view data
      >>= f) trace = (.error (.exception (txt "InvalidAccessError") message), trace) := by
  have hname : (kind.key extractable usages r).view.algorithm (txt "name") = .ok (.str kind.name) := by
    cases kind <;> rfl
  have hcheck : (!JsVal.isText (.lit "ECDSA") (.str kind.name) ||
      !(kind.key extractable usages r).view.type.isText (.lit wanted)) = true := by
    rw [Bool.or_eq_true, Bool.not_eq_true', Bool.not_eq_true']
    show decide (kind.name = _) = false ∨ decide (kind.type = _) = false
    rw [decide_eq_false_iff_not, decide_eq_false_iff_not]
    exact not_and_or.mp h
  refine ⟨(JsString.lit "that key cannot ").append (.lit op), ?_⟩
  unfold ecdsaDigest
  rw [bind_assoc, run_js_ok trace hname, if_pos hcheck]
  rfl

/-- What an operation does with a key the layer made: it fails without calling a native where it does
not take the algorithm, it checks the key if that is ECDSA, and it uses the key if it is not. -/
def Behaves (realm : Realm) (op : KeyOp) (algorithm : Algorithm) (kind : KeyKind) (raw : JsVal)
    (m : Subtle α) (trace : List NativeCall) : Prop :=
  ((∀ name, requested realm op algorithm = some name → op.takes name = false) ∧
      ∃ fault, run m trace = (.error fault, trace)) ∨
    (requested realm op algorithm = some (.lit "ECDSA") ∧
      (¬(kind.name = .lit "ECDSA" ∧ op.fits kind = true) →
        ∃ message, run m trace = (.error (.exception (txt "InvalidAccessError") message), trace))) ∨
    (∃ name, requested realm op algorithm = some name ∧ op.takes name = true ∧
      name ≠ .lit "ECDSA" ∧ Reaches raw m trace)

theorem Behaves.map {op : KeyOp} {r : JsVal} {m : Subtle α} (f : α → β)
    (h : Behaves realm op algorithm kind r m trace) :
    Behaves realm op algorithm kind r (f <$> m) trace := by
  rcases h with ⟨hreq, fault, hrun⟩ | ⟨hreq, hrun⟩ | ⟨name, hreq, htakes, hne, hreach⟩
  · exact .inl ⟨hreq, fault, by rw [run_map, hrun]; rfl⟩
  · refine .inr (.inl ⟨hreq, fun hkind => ?_⟩)
    obtain ⟨message, hrun⟩ := hrun hkind
    exact ⟨message, by rw [run_map, hrun]; rfl⟩
  · exact .inr (.inr ⟨name, hreq, htakes, hne, hreach.map f⟩)

theorem Reaches.of_run {r : JsVal} {m m' : Subtle α} (h : run m trace = run m' trace)
    (h' : Reaches r m' trace) : Reaches r m trace := by
  unfold Reaches Hands
  rw [h]
  exact h'

section
variable {extractable : Bool} {usages : List JsVal} {data signature : Source}

/-- `sign` and `verify` check the key in the ECDSA branch and use it in the other. -/
theorem bySignature_behaves {op : KeyOp} (hop : op = .sign ∨ op = .verify) {wanted what : String}
    {f : JsVal × JsVal → Subtle α} {hmac : Subtle α} {message : JsString}
    (hfits : kind.name = .lit "ECDSA" → kind.type = .lit wanted → op.fits kind = true)
    (hhmac : Reaches (.str raw) hmac trace) :
    Behaves realm op algorithm kind (.str raw)
      (bySignature realm algorithm (ecdsaDigest realm wanted what algorithm
        (kind.key extractable usages (.str raw)).view data >>= f) hmac message) trace := by
  have hreq : requested realm op algorithm = requested realm .sign algorithm := by
    rcases hop with rfl | rfl <;> rfl
  have htakes (name : JsString) : op.takes name = KeyOp.takes .sign name := by
    rcases hop with rfl | rfl <;> rfl
  unfold Behaves
  simp only [hreq, htakes]
  rcases bySignature_cases realm algorithm trace _ hmac message with
    ⟨hname, hrun⟩ | ⟨hname, hrun⟩ | hrefused
  · refine .inr (.inl ⟨hname, fun hkind => ?_⟩)
    rw [hrun]
    exact ecdsaDigest_refuses fun h => hkind ⟨h.1, hfits h.1 h.2⟩
  · exact .inr (.inr ⟨_, hname, by decide, by decide, .of_run hrun hhmac⟩)
  · exact .inl hrefused

theorem sign_behaves :
    Behaves realm .sign algorithm kind (.str raw)
      (sign realm algorithm (kind.key extractable usages (.str raw)).view data) trace := by
  have hraw : rawOf (kind.key extractable usages (.str raw)).view = pure (.str raw) := rawOf_str rfl
  rw [sign_eq]
  refine bySignature_behaves (.inl rfl) ?_ (.js fun hash _ => ?_)
  · intro hname htype
    cases kind <;> first | rfl | cases htype
  · rw [hraw, pure_bind]
    exact .js fun data _ => .native rfl fun tag => .ite (.refuse _ _) (.js _)

theorem verify_behaves :
    Behaves realm .verify algorithm kind (.str raw)
      (verify realm algorithm (kind.key extractable usages (.str raw)).view signature data)
      trace := by
  have hraw : rawOf (kind.key extractable usages (.str raw)).view = pure (.str raw) := rawOf_str rfl
  rw [verify_eq]
  refine bySignature_behaves (.inr rfl) ?_ (.js fun hash _ => ?_)
  · intro hname htype
    cases kind <;> first | rfl | cases htype
  · rw [hraw, pure_bind]
    exact .js fun data _ => .js fun signature _ => .native rfl fun held => .pure _

theorem aes_behaves {op : KeyOp} (cipher : AesOp) (hop : op = .encrypt ∨ op = .decrypt) :
    Behaves realm op algorithm kind (.str raw)
      (aes realm cipher algorithm (kind.key extractable usages (.str raw)).view data) trace := by
  have hraw : rawOf (kind.key extractable usages (.str raw)).view = pure (.str raw) := rawOf_str rfl
  have hreq : requested realm op algorithm = (algorithmName realm algorithm 0).toOption := by
    rcases hop with rfl | rfl <;> rfl
  have htakes (name : JsString) : op.takes name = decide (name = .lit "AES-GCM") := by
    rcases hop with rfl | rfl <;> rfl
  unfold aes
  cases hname : algorithmName realm algorithm 0 with
  | error e =>
    refine .inl ⟨?_, .thrown e, run_js_error trace rfl _⟩
    rw [hreq, hname]
    nofun
  | ok name =>
    by_cases haes : name = .lit "AES-GCM"
    · refine .inr (.inr ⟨name, by rw [hreq, hname]; rfl, by rw [htakes, haes]; rfl,
        by rw [haes]; decide, .js fun name' hname' => ?_⟩)
      cases hname'
      rw [if_neg (not_not_intro haes), hraw, pure_bind]
      exact .js fun iv _ => .js fun data _ => .native rfl fun out =>
        .ite (.refuse _ _) (.ite (.refuse _ _) (.js _))
    · refine .inl ⟨fun name' hname' => ?_, _, by rw [run_js_ok trace rfl, if_pos haes]; rfl⟩
      rw [hreq, hname] at hname'
      cases hname'
      rw [htakes, decide_eq_false haes]

theorem perform_behaves (op : KeyOp) :
    Behaves realm op algorithm kind (.str raw) (perform realm op algorithm
      (kind.key extractable usages (.str raw)).view data signature) trace := by
  cases op with
  | sign => exact sign_behaves.map _
  | verify => exact verify_behaves.map _
  | encrypt => exact (aes_behaves .encrypt (.inl rfl)).map _
  | decrypt => exact (aes_behaves .decrypt (.inr rfl)).map _

end

theorem fits_of_takes {op : KeyOp} (h : op.takes kind.name = true) (hne : kind.name ≠ .lit "ECDSA") :
    op.fits kind = true := by
  cases kind with
  | hmac => rfl
  | aesGcm => rfl
  | ecdsaPublic => exact absurd rfl hne
  | ecdsaPrivate => exact absurd rfl hne

/-- An operation that uses the material before it has checked the key does not keep keys apart. -/
theorem not_separated {op : KeyOp} {r : JsVal} {m : Subtle α}
    (hreq : requested realm op algorithm = some name) (htakes : op.takes name = true)
    (hmatch : ¬(requested realm op algorithm = some kind.name ∧ op.fits kind = true))
    (hreach : Reaches r m trace) : ¬Separated realm op algorithm kind r m trace := by
  intro hsep
  rcases hreach with hhands | ⟨e, he⟩
  · exact hmatch (hsep.handed hhands)
  · obtain ⟨-, fault, hfault, hname⟩ := hsep.refused hmatch
    obtain ⟨message, rfl⟩ := hname name hreq htakes
    rw [he] at hfault
    cases hfault

/-- An operation keeps keys apart exactly when it does not take the algorithm it is asked for, or that
is ECDSA, or the key's own. -/
theorem key_separation (realm : Realm) (op : KeyOp) (algorithm : Algorithm) (kind : KeyKind)
    (extractable : Bool) (usages : List JsVal) (raw : JsString) (data signature : Source)
    (trace : List NativeCall) :
    Separated realm op algorithm kind (.str raw)
        (perform realm op algorithm (kind.key extractable usages (.str raw)).view data signature)
        trace ↔
      ∀ name, requested realm op algorithm = some name → op.takes name = true →
        name = .lit "ECDSA" ∨ name = kind.name := by
  by_cases hmatch : requested realm op algorithm = some kind.name ∧ op.fits kind = true
  · refine iff_of_true ⟨fun _ => hmatch, fun h => absurd hmatch h⟩ fun name hname _ => .inr ?_
    exact Option.some.inj (hname.symm.trans hmatch.1)
  have hbehaves : Behaves realm op algorithm kind (.str raw) (perform realm op algorithm
      (kind.key extractable usages (.str raw)).view data signature) trace := perform_behaves op
  rcases hbehaves with
    ⟨hreq, fault, hrun⟩ | ⟨hreq, hrun⟩ | ⟨asked, hreq, htakes, hne, hreach⟩
  · refine iff_of_true ⟨fun h => absurd h (not_hands_of_run hrun), fun _ =>
      ⟨not_hands_of_run hrun, fault, by rw [hrun], fun name hname htakes => ?_⟩⟩
      fun name hname htakes => ?_
    · exact absurd htakes (by rw [hreq name hname]; exact Bool.false_ne_true)
    · exact absurd htakes (by rw [hreq name hname]; exact Bool.false_ne_true)
  · obtain ⟨message, hrun⟩ := hrun fun h => hmatch ⟨by rw [hreq, h.1], h.2⟩
    refine iff_of_true ⟨fun h => absurd h (not_hands_of_run hrun), fun _ =>
      ⟨not_hands_of_run hrun, _, by rw [hrun], fun _ _ _ => ⟨message, rfl⟩⟩⟩
      fun name hname _ => .inl ?_
    exact Option.some.inj (hname.symm.trans hreq)
  · refine iff_of_false (not_separated hreq htakes hmatch hreach) fun hcond => ?_
    obtain rfl := (hcond asked hreq htakes).resolve_left hne
    exact hmatch ⟨hreq, fits_of_takes htakes hne⟩

/-- An AES-GCM key of 32 bytes signs with HMAC. -/
theorem hmac_signs_with_an_aes_key :
    ¬Separated (.ascii .inert) .sign
      (.plain (.lit "HMAC") (.str (.lit "SHA-256")) .other none) (.aesGcm 256)
      (.str (.hex (List.replicate 32 7)))
      (perform (.ascii .inert) .sign
        (.plain (.lit "HMAC") (.str (.lit "SHA-256")) .other none)
        (KeyKind.key (.aesGcm 256) false [] (.str (.hex (List.replicate 32 7)))).view
        (.bytes [1, 2, 3]) .other) [] := by
  have hreq : requested (.ascii .inert) .sign
      (.plain (.lit "HMAC") (.str (.lit "SHA-256")) .other none) = some (.lit "HMAC") := by decide
  intro hsep
  refine absurd (hsep.handed ⟨[.hmac _ _ _ none], _, rfl, List.mem_singleton_self _, rfl⟩).1 ?_
  rw [hreq]
  decide

end operations

end Subtle

end NovaRuntime
