import NovaRuntime.Lib.Run
import NovaRuntime.Crypto.Keys

/-!
# What guest code can make of a key

Guest code holds keys, calls the operations of `crypto.subtle` in any order, makes keys of its own with
`new CryptoKey`, and writes to the properties of any key and of its `algorithm`, which the two keys of
a pair share.  A property that was deleted, or that an accessor answers for, holds what its next read
gives.  An operation is one act: an accessor that writes to a key while the operation is reading it is
not covered.  Material is in a `WeakMap`, where nothing of this reaches it.

* `Keyring`    the keys made so far; `step` is one act of guest code;
* `Unexported`   no secret key can be exported;
* `guarded`    what `exportKey` relies on;
* `Harmless`   a write that leaves every secret key guarded.
-/

namespace NovaRuntime
open Lib

/-- what is in `key.algorithm` -/
inductive AlgorithmSlot where
  /-- the object that the layer made for a key, or a pair -/
  | shape (i : Nat)
  | other (v : JsVal)

/-- a key object, with its entry in `material` -/
structure KeyCell where
  type : JsVal
  algorithm : AlgorithmSlot
  extractable : JsVal
  raw : JsVal
  /-- the layer made it, as not extractable or as the private key of a pair -/
  secret : Bool

def NewKey.cell (key : NewKey) (shape : Nat) : KeyCell where
  type := .str key.type
  algorithm := .shape shape
  extractable := .bool key.extractable
  raw := key.raw
  secret := !key.extractable || decide (key.type = .lit "private")

/-- the key objects of a worker, and the `algorithm` objects the layer made, both numbered -/
structure Keyring where
  keys : Nat → Option KeyCell
  made : Nat
  shapes : Nat → Text → JsVal
  shaped : Nat
  trace : List NativeCall

inductive KeyAct where
  | importKey (format : FormatArg) (data : Nat → Source) (algorithm : Algorithm)
      (extractable : JsVal) (usages : Js (List JsVal))
  | generateKey (algorithm : Algorithm) (extractable : JsVal) (usages : Js (List JsVal))
  | newCryptoKey (type : JsVal) (algorithm : AlgorithmSlot) (extractable raw : JsVal)
  | exportKey (format : FormatArg) (key : Nat)
  | sign (algorithm : Algorithm) (key : Nat) (data : Source)
  | verify (algorithm : Algorithm) (key : Nat) (signature data : Source)
  | encrypt (algorithm : Algorithm) (key : Nat) (data : Source)
  | decrypt (algorithm : Algorithm) (key : Nat) (data : Source)
  | writeType (key : Nat) (v : JsVal)
  | writeAlgorithm (key : Nat) (v : AlgorithmSlot)
  | writeExtractable (key : Nat) (v : JsVal)
  /-- a write to an `algorithm` object -/
  | writeMember (shape : Nat) (member : Text) (v : JsVal)

namespace Keyring

def start : Keyring := ⟨fun _ => none, 0, fun _ _ => .undefined, 0, []⟩

/-- what reading a key object gives -/
def view (s : Keyring) (cell : KeyCell) : CryptoKey where
  type := cell.type
  algorithm member :=
    match cell.algorithm with
    | .shape i => .ok (s.shapes i member)
    | .other v => v.get member
  extractable := cell.extractable
  raw := cell.raw

/-- a slot of an object there is -/
def Has (s : Keyring) : AlgorithmSlot → Prop
  | .shape i => i < s.shaped
  | .other _ => True

instance (s : Keyring) : (slot : AlgorithmSlot) → Decidable (s.Has slot)
  | .shape i => inferInstanceAs (Decidable (i < s.shaped))
  | .other _ => inferInstanceAs (Decidable True)

def addShape (s : Keyring) (members : List (JsString × JsVal)) : Keyring :=
  { s with
    shapes := Function.update s.shapes s.shaped fun member => JsVal.member member members
    shaped := s.shaped + 1 }

def add (s : Keyring) (cell : KeyCell) : Keyring :=
  { s with keys := Function.update s.keys s.made (some cell), made := s.made + 1 }

def write (s : Keyring) (key : Nat) (f : KeyCell → KeyCell) : Option Keyring :=
  (s.keys key).map fun cell => { s with keys := Function.update s.keys key (some (f cell)) }

/-- what a write does; `none` for an act that is no write, or not possible -/
def written (s : Keyring) : KeyAct → Option Keyring
  | .writeType key v => s.write key fun cell => { cell with type := v }
  | .writeAlgorithm key v =>
    if s.Has v then s.write key fun cell => { cell with algorithm := v } else none
  | .writeExtractable key v => s.write key fun cell => { cell with extractable := v }
  | .writeMember shape member v =>
    if shape < s.shaped then
      let members := Function.update (s.shapes shape) member v
      some { s with shapes := Function.update s.shapes shape members }
    else none
  | _ => none

variable (realm : Realm)

/-- the trace of an operation with a key -/
def withKey (s : Keyring) {α : Type} (key : Nat) (m : CryptoKey → Subtle α) : Option Keyring :=
  (s.keys key).map fun cell => { s with trace := (Subtle.run (m (s.view cell)) s.trace).2 }

/-- the keys that an operation made, and its trace -/
def adding (s : Keyring) {α : Type} (m : Subtle α) (f : Keyring → α → Keyring) : Keyring :=
  match (Subtle.run m s.trace).1 with
  | .ok a => f { s with trace := (Subtle.run m s.trace).2 } a
  | .error _ => { s with trace := (Subtle.run m s.trace).2 }

def addGenerated (s : Keyring) : Subtle.Generated → Keyring
  | .secret key => (s.addShape key.algorithm).add (key.cell s.shaped)
  | .pair privateKey publicKey _ =>
    ((s.addShape privateKey.algorithm).add (privateKey.cell s.shaped)).add
      (publicKey.cell s.shaped)

def step (s : Keyring) (act : KeyAct) : Option Keyring :=
  match act with
  | .importKey format data algorithm extractable usages =>
    some (s.adding (Subtle.importKey realm format data algorithm extractable usages)
      fun s key => (s.addShape key.algorithm).add (key.cell s.shaped))
  | .generateKey algorithm extractable usages =>
    some (s.adding (Subtle.generateKey realm algorithm extractable usages) addGenerated)
  | .newCryptoKey type algorithm extractable raw =>
    if s.Has algorithm then some (s.add ⟨type, algorithm, extractable, raw, false⟩) else none
  | .exportKey format key => s.withKey key (Subtle.exportKey realm format)
  | .sign algorithm key data => s.withKey key fun key => Subtle.sign realm algorithm key data
  | .verify algorithm key signature data =>
    s.withKey key fun key => Subtle.verify realm algorithm key signature data
  | .encrypt algorithm key data => s.withKey key fun key => Subtle.aes realm .encrypt algorithm key data
  | .decrypt algorithm key data => s.withKey key fun key => Subtle.aes realm .decrypt algorithm key data
  | act => s.written act

/-- no secret key can be exported: `exportKey` does not give its material -/
def Unexported (s : Keyring) : Prop :=
  ∀ i cell, s.keys i = some cell → cell.secret = true → ∀ format trace bytes,
    (Subtle.run (Subtle.exportKey realm format (s.view cell)) trace).1 ≠ .ok bytes

end Keyring

/-- A key is marked as not extractable, or is an ECDSA key that is not public; a key whose `algorithm`
cannot be read is as good. -/
def CryptoKey.guarded (key : CryptoKey) : Bool :=
  !key.extractable.truthy ||
    match key.algorithm (txt "name") with
    | .ok name => name.isText (.lit "ECDSA") && !key.type.isText (.lit "public")
    | .error _ => true

namespace Keyring

/-- Every secret key is guarded. -/
def Guarded (s : Keyring) : Prop :=
  ∀ i cell, s.keys i = some cell → cell.secret = true → (s.view cell).guarded = true

/-- An act is no write, or a write that leaves every secret key guarded. -/
def Harmless (s : Keyring) (act : KeyAct) : Prop := ∀ s', s.written act = some s' → s'.Guarded

end Keyring

/-! ## `exportKey` -/

section
variable {realm : Realm} {key : CryptoKey}

theorem exportKey_guarded (h : key.guarded = true) (format : FormatArg) (trace : List NativeCall)
    (bytes : List UInt8) : (Subtle.run (Subtle.exportKey realm format key) trace).1 ≠ .ok bytes := by
  intro hok
  have hrun : Subtle.run (Subtle.exportKey realm format key) trace =
      (.ok bytes, (Subtle.run (Subtle.exportKey realm format key) trace).2) := Prod.ext hok rfl
  unfold Subtle.exportKey at hrun
  obtain ⟨text, -, hrun⟩ := Subtle.run_js_bind_ok _ hrun
  split at hrun
  · obtain ⟨concat, -, hrun⟩ := Subtle.run_js_bind_ok _ hrun
    cases hrun
  split at hrun
  · cases hrun
  next hextractable =>
    obtain ⟨name, hname, hrun⟩ := Subtle.run_js_bind_ok _ hrun
    split at hrun
    · cases hrun
    · next hecdsa =>
      simp only [CryptoKey.guarded, hname, Bool.or_eq_true] at h
      exact h.elim hextractable hecdsa

theorem exportKey_unguarded {raw : JsString} (hraw : key.raw = .str raw)
    (h : key.guarded = false) (trace : List NativeCall) :
    Subtle.run (Subtle.exportKey realm ⟨.ok (.lit "raw"), .ok (.lit "raw")⟩ key) trace =
      (.ok (bytesOfHex raw.units), trace) := by
  simp only [CryptoKey.guarded, Bool.or_eq_false_iff] at h
  obtain ⟨hextractable, hname⟩ := h
  cases hread : key.algorithm (txt "name") with
  | error e =>
    rw [hread] at hname
    cases hname
  | ok name =>
    simp only [hread] at hname
    unfold Subtle.exportKey
    rw [Subtle.run_js_ok trace rfl, if_neg (not_not_intro rfl), hextractable,
      if_neg Bool.false_ne_true, Subtle.run_js_ok trace hread, hname, if_neg Bool.false_ne_true,
      Subtle.rawOf_str hraw, pure_bind]
    rfl

end

/-! ## the invariant -/

namespace Keyring
variable {realm : Realm} {s s' : Keyring} {act : KeyAct} {cell : KeyCell} {i : Nat}

/-- the material of a secret key is a string, and keys have objects there are -/
structure Sound (s : Keyring) : Prop where
  raw : ∀ i cell, s.keys i = some cell → cell.secret = true → ∃ r, cell.raw = .str r
  has : ∀ i cell, s.keys i = some cell → s.Has cell.algorithm

theorem sound_start : Sound start where
  raw _ _ h := by cases h
  has _ _ h := by cases h

theorem unexported_iff (hs : Sound s) : Unexported realm s ↔ Guarded s := by
  constructor
  · intro h i cell hcell hsecret
    by_contra hopen
    rw [Bool.not_eq_true] at hopen
    obtain ⟨r, hr⟩ := hs.raw i cell hcell hsecret
    have hraw : (s.view cell).raw = .str r := hr
    exact h i cell hcell hsecret _ [] _ (congrArg Prod.fst (exportKey_unguarded hraw hopen []))
  · intro h i cell hcell hsecret format trace bytes
    exact exportKey_guarded (h i cell hcell hsecret) format trace bytes

/-! ## acts that add keys -/

theorem add_cases {c : KeyCell} (h : (s.add c).keys i = some cell) :
    cell = c ∨ s.keys i = some cell := by
  have hadd : Function.update s.keys s.made (some c) i = some cell := h
  by_cases hi : i = s.made
  · subst hi
    rw [Function.update_self, Option.some.injEq] at hadd
    exact .inl hadd.symm
  · rw [Function.update_of_ne hi] at hadd
    exact .inr hadd

theorem view_addShape (members : List (JsString × JsVal)) (h : s.Has cell.algorithm) :
    (s.addShape members).view cell = s.view cell := by
  unfold view addShape
  congr 1
  funext member
  cases hslot : cell.algorithm with
  | other v => rfl
  | shape j =>
    rw [hslot] at h
    have hne : j ≠ s.shaped := Nat.ne_of_lt h
    show Except.ok (Function.update s.shapes s.shaped _ j member) = _
    rw [Function.update_of_ne hne]

theorem Has.addShape {slot : AlgorithmSlot} (members : List (JsString × JsVal)) (h : s.Has slot) :
    (s.addShape members).Has slot := by
  cases slot with
  | shape i => exact Nat.lt_succ_of_lt h
  | other v => trivial

/-- both of a sound state with guarded keys -/
structure Safe (s : Keyring) : Prop where
  sound : Sound s
  guarded : Guarded s

theorem Safe.add {c : KeyCell} (h : Safe s) (hhas : s.Has c.algorithm)
    (hc : c.secret = true → (∃ r, c.raw = .str r) ∧ (s.view c).guarded = true) :
    Safe (s.add c) where
  sound.raw i cell hcell hsecret := by
    rcases add_cases hcell with rfl | hcell
    · exact (hc hsecret).1
    · exact h.sound.raw i cell hcell hsecret
  sound.has i cell hcell := by
    rcases add_cases hcell with rfl | hcell
    · exact hhas
    · exact h.sound.has i cell hcell
  guarded i cell hcell hsecret := by
    rcases add_cases hcell with rfl | hcell
    · exact (hc hsecret).2
    · exact h.guarded i cell hcell hsecret

theorem Safe.addShape (members : List (JsString × JsVal)) (h : Safe s) :
    Safe (s.addShape members) where
  sound.raw := h.sound.raw
  sound.has i cell hcell := (h.sound.has i cell hcell).addShape members
  guarded i cell hcell hsecret := by
    rw [view_addShape members (h.sound.has i cell hcell)]
    exact h.guarded i cell hcell hsecret

theorem Safe.traced (h : Safe s) (trace : List NativeCall) : Safe { s with trace := trace } :=
  ⟨⟨h.sound.raw, h.sound.has⟩, h.guarded⟩

theorem cell_guarded {kind : KeyKind} {extractable : Bool} {usages : List JsVal} {raw : JsVal}
    {j : Nat} (hshape : s.shapes j = fun member => JsVal.member member kind.algorithm)
    (hsecret : ((kind.key extractable usages raw).cell j).secret = true) :
    (s.view ((kind.key extractable usages raw).cell j)).guarded = true := by
  cases extractable with
  | false => rfl
  | true =>
    have htype : kind.type = .lit "private" := of_decide_eq_true hsecret
    have hname : (s.view ((kind.key true usages raw).cell j)).algorithm (txt "name") =
        .ok (.str kind.name) := by
      show Except.ok (s.shapes j (txt "name")) = _
      rw [hshape]
      cases kind <;> rfl
    simp only [CryptoKey.guarded, hname]
    cases kind with
    | ecdsaPrivate => rfl
    | hmac => cases htype
    | aesGcm => cases htype
    | ecdsaPublic => cases htype

/-- A key is added with its `algorithm`. -/
theorem Safe.addMade {kind : KeyKind} {extractable : Bool} {usages : List JsVal} {raw : JsVal}
    {j : Nat} (h : Safe s) (hj : j < s.shaped)
    (hshape : s.shapes j = fun member => JsVal.member member kind.algorithm)
    (hraw : ((kind.key extractable usages raw).cell j).secret = true → ∃ r, raw = .str r) :
    Safe (s.add ((kind.key extractable usages raw).cell j)) :=
  h.add hj fun hsecret => ⟨hraw hsecret, cell_guarded hshape hsecret⟩

theorem shapes_addShape (members : List (JsString × JsVal)) :
    (s.addShape members).shapes s.shaped = fun member => JsVal.member member members :=
  Function.update_self _ _ _

theorem adding_safe {α : Type} {m : Subtle α} {f : Keyring → α → Keyring} (h : Safe s)
    (hf : ∀ a trace, Subtle.run m s.trace = (.ok a, trace) → Safe (f { s with trace := trace } a)) :
    Safe (s.adding m f) := by
  unfold adding
  cases hrun : Subtle.run m s.trace with
  | mk result trace =>
    cases result with
    | error e => exact h.traced trace
    | ok a => exact hf a trace hrun

/-- What an act does is what its write does, or it keeps a keyring safe. -/
theorem step_cases (h : s.step realm act = some s') :
    s.written act = some s' ∨ (s.written act = none ∧ (Safe s → Safe s')) := by
  cases act with
  | writeType => exact .inl h
  | writeAlgorithm => exact .inl h
  | writeExtractable => exact .inl h
  | writeMember => exact .inl h
  | importKey format data algorithm extractable usages =>
    cases h
    refine .inr ⟨rfl, fun hs => adding_safe hs fun key trace hrun => ?_⟩
    obtain ⟨kind, asked, raw, rfl, -⟩ := Subtle.importKey_kind hrun
    exact ((hs.traced trace).addShape _).addMade (Nat.lt_succ_self _) (shapes_addShape _)
      fun _ => ⟨raw, rfl⟩
  | generateKey algorithm extractable usages =>
    cases h
    refine .inr ⟨rfl, fun hs => adding_safe hs fun made trace hrun => ?_⟩
    rcases Subtle.generateKey_kind hrun with ⟨key, asked, raw, rfl, rfl⟩ |
      ⟨privateKey, publicKey, shared, curve, sign, verify, scalar, point, rfl, rfl, rfl⟩
    · exact ((hs.traced trace).addShape _).addMade (Nat.lt_succ_self _) (shapes_addShape _)
        fun _ => ⟨raw, rfl⟩
    · refine Safe.addMade (((hs.traced trace).addShape _).addMade (Nat.lt_succ_self _)
        (shapes_addShape _) fun _ => ⟨scalar, rfl⟩) (Nat.lt_succ_self _) ?_ nofun
      exact shapes_addShape _
  | newCryptoKey type algorithm extractable raw =>
    simp only [step] at h
    split at h
    · next hhas =>
      cases h
      exact .inr ⟨rfl, fun hs => hs.add hhas nofun⟩
    · cases h
  | exportKey | sign | verify | encrypt | decrypt =>
    obtain ⟨cell, -, rfl⟩ := Option.map_eq_some_iff.mp h
    exact .inr ⟨rfl, fun hs => hs.traced _⟩

/-- A write keeps the material of keys, and their objects. -/
theorem Sound.write {f : KeyCell → KeyCell} (hs : Sound s) (h : s.write i f = some s')
    (hf : ∀ cell, (f cell).raw = cell.raw ∧ (f cell).secret = cell.secret)
    (hhas : ∀ cell, s.Has cell.algorithm → s.Has (f cell).algorithm) : Sound s' := by
  obtain ⟨old, hold, rfl⟩ := Option.map_eq_some_iff.mp h
  have hcases {k : Nat} {cell : KeyCell}
      (hk : Function.update s.keys i (some (f old)) k = some cell) :
      cell = f old ∨ s.keys k = some cell := by
    by_cases hi : k = i
    · subst hi
      rw [Function.update_self, Option.some.injEq] at hk
      exact .inl hk.symm
    · rw [Function.update_of_ne hi] at hk
      exact .inr hk
  refine ⟨fun k cell hk hsecret => ?_, fun k cell hk => ?_⟩
  · rcases hcases hk with rfl | hk
    · rw [(hf old).1]
      exact hs.raw i old hold ((hf old).2 ▸ hsecret)
    · exact hs.raw k cell hk hsecret
  · rcases hcases hk with rfl | hk
    · exact hhas old (hs.has i old hold)
    · exact hs.has k cell hk

theorem Sound.written (hs : Sound s) (h : s.written act = some s') : Sound s' := by
  cases act with
  | writeType key v => exact hs.write h (fun _ => ⟨rfl, rfl⟩) fun _ hhas => hhas
  | writeExtractable key v => exact hs.write h (fun _ => ⟨rfl, rfl⟩) fun _ hhas => hhas
  | writeAlgorithm key v =>
    simp only [Keyring.written] at h
    split at h
    · next hv => exact hs.write h (fun _ => ⟨rfl, rfl⟩) fun _ _ => hv
    · cases h
  | writeMember shape member v =>
    simp only [Keyring.written] at h
    split at h
    · cases h
      exact ⟨hs.raw, hs.has⟩
    · cases h
  | _ => cases h

/-! ## a run -/

theorem unexported_start : Unexported realm start := by
  intro i cell hcell
  cases hcell

theorem Sound.step (hs : Sound s) (hp : Unexported realm s) (h : s.step realm act = some s') :
    Sound s' := by
  rcases step_cases h with hwrite | ⟨-, hsafe⟩
  · exact hs.written hwrite
  · exact (hsafe ⟨hs, (unexported_iff hs).mp hp⟩).sound

theorem unexported_step (hs : Sound s) (hp : Unexported realm s)
    (h : s.step realm act = some s') : Unexported realm s' ↔ Harmless s act := by
  rw [unexported_iff (hs.step hp h)]
  rcases step_cases h with hwrite | ⟨hnone, hsafe⟩
  · refine ⟨fun hg t ht => ?_, fun hharmless => hharmless s' hwrite⟩
    rw [hwrite, Option.some.injEq] at ht
    exact ht ▸ hg
  · refine iff_of_true (hsafe ⟨hs, (unexported_iff hs).mp hp⟩).guarded fun t ht => ?_
    rw [hnone] at ht
    cases ht

/-- In a run of any acts of guest code, no secret key can ever be exported, exactly when every write
leaves every secret key guarded. -/
theorem secret_keys_stay (realm : Realm) (acts : List KeyAct) (t : Keyring)
    (h : run (step realm) start acts = some t) :
    Always (step realm) (Unexported realm) start acts ↔ Meets (step realm) Harmless start acts :=
  always_iff_meets _ (I := Sound) (P := Unexported realm)
    (fun _ _ _ hs hp hstep => hs.step hp hstep)
    (fun _ _ _ hs hp hstep => unexported_step hs hp hstep) sound_start unexported_start h

/-- an HMAC key imported as not extractable, which is then marked as extractable -/
def markedExtractable : List KeyAct :=
  [.importKey ⟨.ok (.lit "raw"), .ok (.lit "raw")⟩ (fun _ => .bytes [1, 2, 3])
      (.plain (.lit "HMAC") (.str (.lit "SHA-256")) .other none) (.bool false) (.ok []),
    .writeExtractable 0 (.bool true)]

theorem secret_keys_stay_marked :
    ∃ t, run (step (.ascii .inert)) start markedExtractable = some t ∧
      (Always (step (.ascii .inert)) (Unexported (.ascii .inert)) start markedExtractable ↔
        Meets (step (.ascii .inert)) Harmless start markedExtractable) :=
  ⟨_, rfl, secret_keys_stay _ _ _ rfl⟩

/-- `exportKey` gives the material of the key that was imported as not extractable. -/
theorem a_marked_key_is_exported :
    ∃ t cell trace, run (step (.ascii .inert)) start markedExtractable = some t ∧
      t.keys 0 = some cell ∧ cell.secret = true ∧
      Subtle.run (Subtle.exportKey (.ascii .inert) ⟨.ok (.lit "raw"), .ok (.lit "raw")⟩
        (t.view cell)) t.trace = (.ok [1, 2, 3], trace) ∧
      ¬Always (step (.ascii .inert)) (Unexported (.ascii .inert)) start markedExtractable := by
  refine ⟨_, _, _, rfl, rfl, rfl, rfl, fun halways => ?_⟩
  exact (halways.2 _ rfl).2 _ rfl 0 _ rfl rfl ⟨.ok (.lit "raw"), .ok (.lit "raw")⟩ [] [1, 2, 3] rfl

end Keyring

end NovaRuntime
