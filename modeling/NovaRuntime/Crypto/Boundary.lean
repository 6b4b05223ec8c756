import NovaRuntime.Crypto.Subtle

/-!
# The strings that cross in digits

* `native_encoding`   the native of `encoding.rs`, over the encodings of its crate;
* `HexCall`           a call with strings for its arguments, and `hexArgs`, those in digits;
* `Cut`               the texts of which a slice cuts a character;
* `KeyUse`            what the layer does with the material of a key;
* `Harmless`          a string that is read, and answered, wherever it is passed.
-/

namespace NovaRuntime
open Lib

/-! ## slices -/

/-- two characters that are a number of a byte; the first may be a sign -/
def Number (a b : Nat) : Prop := (a = 43 ∨ (Json.hexVal a).isSome) ∧ (Json.hexVal b).isSome

/-- a text of such numbers -/
inductive Numbers : Text → Prop where
  | nil : Numbers []
  | cons {a b : Nat} {rest : Text} (h : Number a b) (hrest : Numbers rest) :
      Numbers (a :: b :: rest)

/-- after numbers, a character that is longer than a slice, or that leaves one byte of its slice to a
longer one -/
def Cut (text : Text) : Prop :=
  (text.map utf8Size).sum % 2 = 0 ∧
    ∃ before a rest, text = before ++ a :: rest ∧ Numbers before ∧
      (3 ≤ utf8Size a ∨ utf8Size a = 1 ∧ ∃ b ∈ rest.head?, 2 ≤ utf8Size b)

theorem hexVal_lt {c : Nat} (h : (Json.hexVal c).isSome) : c < 128 := by
  unfold Json.hexVal at h
  split at h
  · omega
  · split at h
    · omega
    · split at h
      · omega
      · cases h

theorem Number.size {a b : Nat} (h : Number a b) : utf8Size a = 1 ∧ utf8Size b = 1 := by
  refine ⟨utf8Size_ascii ?_, utf8Size_ascii (hexVal_lt h.2)⟩
  rcases h.1 with rfl | ha
  · omega
  · exact hexVal_lt ha

theorem fromStrRadix_isSome (a b : Nat) : (fromStrRadix a b).isSome ↔ Number a b := by
  unfold fromStrRadix Number
  split
  · next ha => simp [ha]
  · next ha =>
    have hpair : (Hex.pair a b).isSome ↔ (Json.hexVal a).isSome ∧ (Json.hexVal b).isSome := by
      unfold Hex.pair
      cases Json.hexVal a <;> cases Json.hexVal b <;> simp
    rw [hpair]
    simp [ha]

theorem utf8Size_pos (c : Nat) : 1 ≤ utf8Size c := by
  unfold utf8Size Utf8.bytes
  split
  · exact Nat.le_refl _
  · split
    · show 1 ≤ 2; omega
    · split
      · show 1 ≤ 3; omega
      · show 1 ≤ 4; omega

/-- the slice from `a` on cuts a character -/
def CutAt (a : Nat) (rest : Text) : Prop :=
  3 ≤ utf8Size a ∨ utf8Size a = 1 ∧ ∃ b ∈ rest.head?, 2 ≤ utf8Size b

/-- a slice after numbers does -/
def CutsSlice (text : Text) : Prop :=
  ∃ before a rest, text = before ++ a :: rest ∧ Numbers before ∧ CutAt a rest

theorem not_cutsSlice_nil : ¬ CutsSlice [] := by
  rintro ⟨before, a, rest, heq, -⟩
  cases before <;> cases heq

theorem cutsSlice_single (x : Nat) : CutsSlice [x] ↔ 3 ≤ utf8Size x := by
  constructor
  · rintro ⟨before, a, rest, heq, hnumbers, hcut⟩
    cases hnumbers with
    | nil =>
      cases heq
      rcases hcut with h | ⟨-, b, hb, -⟩
      · exact h
      · cases hb
    | cons hnumber hrest => cases (List.cons.inj heq).2
  · intro h
    exact ⟨[], x, [], rfl, .nil, .inl h⟩

/-- The first slice cuts a character, or it is a number and the rest of the text is cut. -/
theorem cutsSlice_cons_cons (x y : Nat) (rest : Text) :
    CutsSlice (x :: y :: rest) ↔
      (3 ≤ utf8Size x ∨ utf8Size x = 1 ∧ 2 ≤ utf8Size y) ∨ Number x y ∧ CutsSlice rest := by
  constructor
  · rintro ⟨before, a, rest', heq, hnumbers, hcut⟩
    cases hnumbers with
    | nil =>
      cases heq
      rcases hcut with h | ⟨hone, b, hb, hlong⟩
      · exact .inl (.inl h)
      · cases hb
        exact .inl (.inr ⟨hone, hlong⟩)
    | cons hnumber hrest =>
      cases heq
      exact .inr ⟨hnumber, _, a, rest', rfl, hrest, hcut⟩
  · rintro (hcut | ⟨hnumber, before, a, rest', rfl, hnumbers, hcut⟩)
    · refine ⟨[], x, y :: rest, rfl, .nil, hcut.imp_right ?_⟩
      intro h
      exact ⟨h.1, y, rfl, h.2⟩
    · exact ⟨x :: y :: before, a, rest', rfl, .cons hnumber hnumbers, hcut⟩

/-- the loop panics at the first character that a slice cuts, if only numbers come before it -/
theorem slices_none_iff (text : Text) : fromHex.slices text = none ↔ CutsSlice text := by
  induction text using fromHex.slices.induct with
  | case1 =>
    rw [fromHex.slices]
    exact iff_of_false (Option.some_ne_none _) not_cutsSlice_nil
  | case2 x hsize =>
    rw [fromHex.slices, if_pos hsize, cutsSlice_single]
    exact iff_of_false (Option.some_ne_none _) (by omega)
  | case3 x hsize =>
    rw [fromHex.slices, if_neg hsize, cutsSlice_single]
    exact iff_of_true rfl (by omega)
  | case4 x y rest hsize =>
    rw [fromHex.slices, if_pos hsize, cutsSlice_cons_cons]
    refine iff_of_false (Option.some_ne_none _) ?_
    rintro (hcut | ⟨hnumber, -⟩)
    · omega
    · have := hnumber.size
      omega
  | case5 x y rest hsize hone hradix =>
    rw [fromHex.slices, if_neg hsize, if_pos hone, hradix, cutsSlice_cons_cons]
    refine iff_of_false (Option.some_ne_none _) ?_
    rintro (hcut | ⟨hnumber, -⟩)
    · omega
    · rw [← fromStrRadix_isSome, hradix] at hnumber
      cases hnumber
  | case6 x y rest hsize hone byte hradix ih =>
    have hnumber : Number x y := (fromStrRadix_isSome x y).mp (by rw [hradix]; rfl)
    rw [fromHex.slices, if_neg hsize, if_pos hone, hradix, cutsSlice_cons_cons]
    show (fromHex.slices rest).map _ = none ↔ _
    rw [Option.map_eq_none_iff, or_iff_right (by omega), and_iff_right hnumber]
    exact ih
  | case7 x y rest hsize hone =>
    rw [fromHex.slices, if_neg hsize, if_neg hone, cutsSlice_cons_cons]
    refine iff_of_true rfl (.inl ?_)
    have hx := utf8Size_pos x
    have hy := utf8Size_pos y
    omega

theorem fromHex_none_iff (text : Text) : fromHex text = none ↔ Cut text := by
  unfold fromHex Cut
  split
  · next heven =>
    rw [slices_none_iff]
    exact ⟨fun h => ⟨heven, h⟩, fun h => h.2⟩
  · next hodd => exact ⟨nofun, fun h => absurd h.1 hodd⟩

/-! ## the natives, with strings -/

structure Encoding where
  name : JsString
  isUtf16Le : Bool
  isUtf16Be : Bool
  /-- `decode_without_bom_handling` -/
  decode : List UInt8 → JsString
  /-- `decode_without_bom_handling_and_without_replacement` -/
  decodeFatal : List UInt8 → Option JsString

/-- `char::is_whitespace` -/
def isRustSpace (c : Nat) : Bool :=
  (9 ≤ c && c ≤ 13) || c = 32 || c = 0x85 || c = 0xA0 || c = 0x1680 ||
    (0x2000 ≤ c && c ≤ 0x200A) || c = 0x2028 || c = 0x2029 || c = 0x202F || c = 0x205F || c = 0x3000

def trim (text : Text) : Text :=
  ((text.dropWhile isRustSpace).reverse.dropWhile isRustSpace).reverse

namespace Encoding

def bom (encoding : Encoding) : List UInt8 :=
  if encoding.isUtf16Le then [0xff, 0xfe] else if encoding.isUtf16Be then [0xfe, 0xff] else []

def withoutBom (encoding : Encoding) (ignoreBom : Bool) (bytes : List UInt8) : List UInt8 :=
  if encoding.bom <+: bytes ∧ !ignoreBom ∧ encoding.bom ≠ [] then bytes.drop encoding.bom.length
  else bytes

end Encoding

/-- `native_encoding`, over `Encoding::for_label` -/
def nativeEncoding (forLabel : Text → Option Encoding) (op text hex fatal ignoreBom : JsVal) :
    Native JsVal := do
  let op ← Native.arg op
  let text ← Native.arg text
  match forLabel (trim text) with
  | none => return .null
  | some encoding =>
    if op = txt "name" then return .str encoding.name
    else
      let hex ← Native.arg hex
      match ← Native.orPanic (fromHex hex) with
      | none => return .null
      | some bytes =>
        let bytes := encoding.withoutBom ignoreBom.isTrue bytes
        match if fatal.isTrue then encoding.decodeFatal bytes else some (encoding.decode bytes) with
        | some decoded => return .str decoded
        | none => return .bool false

/-- a call of a native that takes digits, with strings for its arguments; what `ecdsa` is not given
is the empty string -/
inductive HexCall where
  | digest (algorithm hex : JsString)
  | hmac (hash key data : JsString) (tag : Option JsString)
  | aesGcm (op key iv data : JsString)
  | ecdsa (op curve a b c : JsString)
  | encoding (op text hex : JsString) (fatal ignoreBom : JsVal)

namespace HexCall

def hexArgs : HexCall → List JsString
  | .digest _ hex => [hex]
  | .hmac _ key data tag => key :: data :: tag.toList
  | .aesGcm _ key iv data => [key, iv, data]
  | .ecdsa _ _ a b c => [a, b, c]
  | .encoding _ _ hex _ _ => [hex]

variable (crates : CryptoCrates) (forLabel : Text → Option Encoding)

def aesGcmAnswer (op key iv data : JsString) : Native JsVal :=
  if decodeLossy op.units = txt "encrypt" then
    crates.nativeAesGcm .encrypt (.str key) (.str iv) (.str data)
  else if decodeLossy op.units = txt "decrypt" then
    crates.nativeAesGcm .decrypt (.str key) (.str iv) (.str data)
  else do
    -- whatever is asked for, the arguments are read first
    let _ ← Native.orPanic (fromHex (decodeLossy key.units))
    let _ ← Native.orPanic (fromHex (decodeLossy iv.units))
    let _ ← Native.orPanic (fromHex (decodeLossy data.units))
    return .null

def ecdsaAnswer (op curve a b c : JsString) : Native JsVal :=
  let op := decodeLossy op.units
  if op = txt "generate" then crates.nativeEcdsaGenerate (.str curve)
  else if op = txt "sign" then crates.nativeEcdsaSign (.str curve) (.str a) (.str b)
  else if op = txt "verify" then crates.nativeEcdsaVerify (.str curve) (.str a) (.str b) (.str c)
  else if op = txt "check" then crates.nativeEcdsaCheck (.str curve) (.str a)
  else return .null

def answer : HexCall → Native JsVal
  | .digest algorithm hex => crates.nativeDigest (.str algorithm) (.str hex)
  | .hmac hash key data tag => crates.nativeHmac (.str hash) (.str key) (.str data) (tag.map .str)
  | .aesGcm op key iv data => aesGcmAnswer crates op key iv data
  | .ecdsa op curve a b c => ecdsaAnswer crates op curve a b c
  | .encoding op text hex fatal ignoreBom =>
    nativeEncoding forLabel (.str op) (.str text) (.str hex) fatal ignoreBom

end HexCall

/-! ## how a native ends -/

namespace Native
variable {α β : Type} {throws : Prop}

/-- it does not panic, and throws only if it may -/
def Ends (throws : Prop) (m : Native α) : Prop :=
  ∃ r, m.run = some r ∧ ∀ e, r = .error e → throws

/-- an argument in digits: if it converts, the host can read it -/
structure Readable (throws : Prop) (v : JsVal) : Prop where
  converts : ∀ e, v.toText = .error e → throws
  reads : ∀ s, v.toText = .ok s → fromHex (decodeLossy s.units) ≠ none

theorem ends_pure (a : α) : Ends throws (pure a : Native α) := ⟨.ok a, rfl, nofun⟩

theorem Ends.bind {m : Native α} {f : α → Native β} (h : Ends throws m)
    (hf : ∀ a, m.run = some (.ok a) → Ends throws (f a)) : Ends throws (m >>= f) := by
  obtain ⟨r, hrun, herror⟩ := h
  cases r with
  | ok a =>
    rw [bind_ok (x := m) (a := a) hrun]
    exact hf a hrun
  | error e =>
    refine ⟨.error e, ?_, fun _ _ => herror e rfl⟩
    show (m >>= f).run = some (.error e)
    rw [ExceptT.run_bind, hrun]
    rfl

theorem bind_ok_cases {m : Native α} {f : α → Native β} {b : β}
    (h : (m >>= f).run = some (.ok b)) : ∃ a, m.run = some (.ok a) ∧ (f a).run = some (.ok b) := by
  rw [ExceptT.run_bind] at h
  rcases hm : m.run with - | e | a
  · rw [hm] at h
    cases h
  · rw [hm] at h
    cases h
  · rw [hm] at h
    exact ⟨a, rfl, h⟩

theorem ends_arg {v : JsVal} (h : ∀ e, v.toText = .error e → throws) :
    Ends throws (Native.arg v) := by
  refine ⟨_, rfl, fun e he => ?_⟩
  cases hv : v.toText with
  | ok s =>
    rw [hv] at he
    cases he
  | error e => exact h e hv

theorem bind_arg {v : JsVal} {f : Text → Native β} (h : ∀ e, v.toText = .error e → throws)
    (hf : ∀ text, Ends throws (f text)) : Ends throws (Native.arg v >>= f) :=
  (ends_arg h).bind fun text _ => hf text

theorem bind_readable {v : JsVal} {f : Text → Native β} (h : Readable throws v)
    (hf : ∀ text, fromHex text ≠ none → Ends throws (f text)) :
    Ends throws (Native.arg v >>= f) := by
  refine (ends_arg h.converts).bind fun text htext => hf text ?_
  have hconv : v.toText.map (fun s => decodeLossy s.units) = .ok text := Option.some.inj htext
  cases hv : v.toText with
  | error e =>
    rw [hv] at hconv
    cases hconv
  | ok s =>
    rw [hv] at hconv
    cases hconv
    exact h.reads s hv

theorem bind_fromHex {text : Text} {f : Option (List UInt8) → Native β} (h : fromHex text ≠ none)
    (hf : ∀ bytes, Ends throws (f bytes)) :
    Ends throws (Native.orPanic (fromHex text) >>= f) := by
  obtain ⟨bytes, hbytes⟩ := Option.ne_none_iff_exists'.mp h
  rw [bind_ok (orPanic_some hbytes)]
  exact hf bytes

theorem readable_str {s : JsString} (h : fromHex (decodeLossy s.units) ≠ none) :
    Readable throws (.str s) where
  converts := nofun
  reads t ht := by cases ht; exact h

theorem readable_hex (bytes : List UInt8) : Readable throws (.str (.hex bytes)) := by
  have hself : decodeLossy (JsString.hex bytes).units = toHex bytes :=
    Except.ok.inj (Option.some.inj (arg_hex bytes))
  refine readable_str ?_
  rw [hself, fromHex_toHex]
  nofun

end Native

namespace CryptoCrates
open Native
variable (crates : CryptoCrates) {throws : Prop}

theorem digest_ends {algorithm data : JsVal} (ha : ∀ e, algorithm.toText = .error e → throws)
    (hd : Readable throws data) : Ends throws (crates.nativeDigest algorithm data) := by
  unfold nativeDigest
  refine bind_arg ha fun algorithm => bind_readable hd fun input hinput => ?_
  refine bind_fromHex hinput fun bytes => ?_
  split <;> exact ends_pure _

theorem hmac_ends {hash key data : JsVal} {tag : Option JsVal}
    (hh : ∀ e, hash.toText = .error e → throws) (hk : Readable throws key)
    (hd : Readable throws data) (ht : ∀ t ∈ tag, Readable throws t) :
    Ends throws (crates.nativeHmac hash key data tag) := by
  unfold nativeHmac
  refine bind_arg hh fun hash => bind_readable hk fun key hkey => bind_readable hd fun data hdata => ?_
  cases tag with
  | none =>
    refine (ends_pure none).bind fun tag htag => ?_
    cases htag
    refine bind_fromHex hkey fun key => bind_fromHex hdata fun data => ?_
    split
    · dsimp only
      split <;> exact ends_pure _
    · exact ends_pure _
  | some tag =>
    show Ends throws (some <$> Native.arg tag >>= _)
    rw [map_eq_pure_bind, bind_assoc]
    refine bind_readable (ht tag rfl) fun tag htag => ?_
    rw [pure_bind]
    refine bind_fromHex hkey fun key => bind_fromHex hdata fun data => ?_
    split
    · refine bind_fromHex htag fun tag => ?_
      split
      · exact ends_pure _
      · split <;> exact ends_pure _
    · exact ends_pure _

theorem aesGcm_ends (op : AesOp) {key iv data : JsVal} (hk : Readable throws key)
    (hi : Readable throws iv) (hd : Readable throws data) :
    Ends throws (crates.nativeAesGcm op key iv data) := by
  unfold nativeAesGcm
  refine bind_readable hk fun key hkey => bind_readable hi fun iv hiv =>
    bind_readable hd fun data hdata => ?_
  refine bind_fromHex hkey fun key => bind_fromHex hiv fun iv => bind_fromHex hdata fun data => ?_
  split
  · split
    · cases op <;> dsimp only <;> split <;> exact ends_pure _
    · exact ends_pure _
  · exact ends_pure _

theorem curveArg_ends {curve : JsVal} (h : ∀ e, curve.toText = .error e → throws) :
    Ends throws (crates.curveArg curve) :=
  bind_arg h fun _ => ends_pure _

theorem generate_ends {curve : JsVal} (h : ∀ e, curve.toText = .error e → throws) :
    Ends throws (crates.nativeEcdsaGenerate curve) := by
  unfold nativeEcdsaGenerate
  refine (crates.curveArg_ends h).bind fun curve _ => ?_
  split <;> exact ends_pure _

theorem check_ends {curve point : JsVal} (h : ∀ e, curve.toText = .error e → throws)
    (hp : Readable throws point) : Ends throws (crates.nativeEcdsaCheck curve point) := by
  unfold nativeEcdsaCheck
  refine (crates.curveArg_ends h).bind fun curve _ => bind_readable hp fun point hpoint => ?_
  split
  · exact ends_pure _
  · refine bind_fromHex hpoint fun point => ?_
    split <;> exact ends_pure _

theorem sign_ends {curve key digest : JsVal} (h : ∀ e, curve.toText = .error e → throws)
    (hk : Readable throws key) (hd : Readable throws digest) :
    Ends throws (crates.nativeEcdsaSign curve key digest) := by
  unfold nativeEcdsaSign
  refine (crates.curveArg_ends h).bind fun curve _ => bind_readable hk fun key hkey =>
    bind_readable hd fun digest hdigest => ?_
  split
  · exact ends_pure _
  · refine bind_fromHex hkey fun key => bind_fromHex hdigest fun digest => ?_
    split
    · split <;> exact ends_pure _
    · exact ends_pure _

theorem verify_ends {curve key digest signature : JsVal}
    (h : ∀ e, curve.toText = .error e → throws) (hk : Readable throws key)
    (hd : Readable throws digest) (hs : Readable throws signature) :
    Ends throws (crates.nativeEcdsaVerify curve key digest signature) := by
  unfold nativeEcdsaVerify
  refine (crates.curveArg_ends h).bind fun curve _ => bind_readable hk fun key hkey =>
    bind_readable hd fun digest hdigest => bind_readable hs fun signature hsignature => ?_
  split
  · exact ends_pure _
  · refine bind_fromHex hkey fun key => bind_fromHex hdigest fun digest =>
      bind_fromHex hsignature fun signature => ?_
    split
    · split
      · exact ends_pure _
      · split <;> exact ends_pure _
    · exact ends_pure _

end CryptoCrates

theorem encoding_ends {throws : Prop} (forLabel : Text → Option Encoding)
    {op text hex : JsVal} (fatal ignoreBom : JsVal) (ho : ∀ e, op.toText = .error e → throws)
    (ht : ∀ e, text.toText = .error e → throws) (hh : Native.Readable throws hex) :
    Native.Ends throws (nativeEncoding forLabel op text hex fatal ignoreBom) := by
  unfold nativeEncoding
  refine Native.bind_arg ho fun op => Native.bind_arg ht fun text => ?_
  split
  · exact Native.ends_pure _
  · split
    · exact Native.ends_pure _
    · refine Native.bind_readable hh fun hex hhex => Native.bind_fromHex hhex fun bytes => ?_
      split
      · exact Native.ends_pure _
      · dsimp only
        split <;> exact Native.ends_pure _

/-- A call whose digits can all be read has an answer: it neither panics nor throws. -/
theorem HexCall.answer_ends (crates : CryptoCrates) (forLabel : Text → Option Encoding)
    (call : HexCall) (h : ∀ t ∈ call.hexArgs, fromHex (decodeLossy t.units) ≠ none) :
    Native.Ends False (call.answer crates forLabel) := by
  have hstr : ∀ (s : JsString) (e : JsVal), (JsVal.str s).toText = .error e → False :=
    fun s e he => by cases he
  have hread : ∀ t ∈ call.hexArgs, Native.Readable False (.str t) :=
    fun t ht => Native.readable_str (h t ht)
  cases call with
  | digest algorithm hex => exact crates.digest_ends (hstr _) (hread hex (by simp [hexArgs]))
  | hmac hash key data tag =>
    refine crates.hmac_ends (hstr _) (hread key (by simp [hexArgs]))
      (hread data (by simp [hexArgs])) fun t ht => ?_
    obtain ⟨s, hs, rfl⟩ := Option.map_eq_some_iff.mp ht
    exact hread s (by simp [hexArgs, hs])
  | aesGcm op key iv data =>
    have hk := hread key (by simp [hexArgs])
    have hi := hread iv (by simp [hexArgs])
    have hd := hread data (by simp [hexArgs])
    show Native.Ends False (aesGcmAnswer crates op key iv data)
    unfold aesGcmAnswer
    split
    · exact crates.aesGcm_ends .encrypt hk hi hd
    · split
      · exact crates.aesGcm_ends .decrypt hk hi hd
      · exact Native.bind_fromHex (hk.reads key rfl) fun _ =>
          Native.bind_fromHex (hi.reads iv rfl) fun _ =>
          Native.bind_fromHex (hd.reads data rfl) fun _ => Native.ends_pure _
  | ecdsa op curve a b c =>
    have ha := hread a (by simp [hexArgs])
    have hb := hread b (by simp [hexArgs])
    have hc := hread c (by simp [hexArgs])
    show Native.Ends False (ecdsaAnswer crates op curve a b c)
    unfold ecdsaAnswer
    simp only
    split
    · exact crates.generate_ends (hstr _)
    · split
      · exact crates.sign_ends (hstr _) ha hb
      · split
        · exact crates.verify_ends (hstr _) ha hb hc
        · split
          · exact crates.check_ends (hstr _) ha
          · exact Native.ends_pure _
  | encoding op text hex fatal ignoreBom =>
    exact encoding_ends forLabel fatal ignoreBom (hstr _) (hstr _) (hread hex (by simp [hexArgs]))

/-! ## the material of a key -/

/-- what the layer does with a key that it is given -/
inductive KeyUse where
  | sign (algorithm : Algorithm) (data : Source)
  | verify (algorithm : Algorithm) (signature data : Source)
  | cipher (op : AesOp) (algorithm : Algorithm) (data : Source)
  | export (format : FormatArg)

namespace Subtle
variable {α β : Type}

/-- no native panics in the operation, whatever was called before -/
def Survives (m : Subtle α) : Prop := ∀ trace, (run m trace).1 ≠ .error .crash

theorem survives_pure (a : α) : Survives (pure a : Subtle α) := fun _ => nofun

theorem survives_js (x : Js α) : Survives (js x) := by
  intro trace
  rw [run_js]
  cases x <;> nofun

theorem survives_refuse (name : String) (message : JsString) :
    Survives (refuse name message : Subtle α) := fun _ => nofun

theorem Survives.bind {m : Subtle α} {f : α → Subtle β} (h : Survives m)
    (hf : ∀ a, (∃ trace, (run m trace).1 = .ok a) → Survives (f a)) : Survives (m >>= f) := by
  intro trace
  have hm := h trace
  rw [run_bind]
  cases hrun : run m trace with
  | mk result trace' =>
    rw [hrun] at hm
    cases result with
    | error e =>
      show Except.error e ≠ .error .crash
      exact fun he => hm (congrArg Except.error (Except.error.inj he))
    | ok a => exact hf a ⟨trace, by rw [hrun]⟩ trace'

theorem bind_js {x : Js α} {f : α → Subtle β} (hf : ∀ a, Survives (f a)) :
    Survives (js x >>= f) :=
  (survives_js x).bind fun a _ => hf a

variable (realm : Realm) (crates : CryptoCrates)

/-- a realm whose natives are those of the host -/
def hosted : Realm := { realm with native := fun _ call => crates.answer call }

theorem run_native_error {trace : List NativeCall} {call : NativeCall} {e : JsVal}
    (h : (realm.native trace call).run = some (.error e)) :
    run (native realm call) trace = (.error (.thrown e), call :: trace) := by
  unfold native
  show (Prod.mk _ _ : Except Fault JsVal × List NativeCall) = _
  rw [h]
  rfl

theorem survives_native {call : NativeCall} (h : Native.Ends True (crates.answer call)) :
    Survives (native (hosted realm crates) call) := by
  obtain ⟨r, hrun, -⟩ := h
  intro trace
  cases r with
  | ok v =>
    have hok : ((hosted realm crates).native trace call).run = some (.ok v) := hrun
    rw [run_native_ok (hosted realm crates) trace hok]
    exact fun h => by cases h
  | error e =>
    have herror : ((hosted realm crates).native trace call).run = some (.error e) := hrun
    rw [run_native_error (hosted realm crates) herror]
    exact fun h => by cases h

/-- what the native of a digest gives can be read again -/
theorem digest_readable {hash data : JsVal} {trace : List NativeCall} {v : JsVal}
    (h : (run (native (hosted realm crates) (.digest hash data)) trace).1 = .ok v) :
    Native.Readable True v := by
  have hanswer : (crates.nativeDigest hash data).run = some (.ok v) := by
    rcases hrun : ((hosted realm crates).native trace (.digest hash data)).run with - | e | v'
    · rw [run_native_crash (hosted realm crates) trace hrun] at h
      cases h
    · rw [run_native_error (hosted realm crates) hrun] at h
      cases h
    · rw [run_native_ok (hosted realm crates) trace hrun] at h
      rw [← Except.ok.inj h]
      exact hrun
  have hv : (∃ bytes, v = .str (.hex bytes)) ∨ v = .null := by
    unfold CryptoCrates.nativeDigest at hanswer
    obtain ⟨name, -, hanswer⟩ := Native.bind_ok_cases hanswer
    obtain ⟨input, -, hanswer⟩ := Native.bind_ok_cases hanswer
    obtain ⟨read, -, hanswer⟩ := Native.bind_ok_cases hanswer
    split at hanswer
    · cases hanswer
      exact .inl ⟨_, rfl⟩
    · cases hanswer
      exact .inr rfl
  rcases hv with ⟨bytes, rfl⟩ | rfl
  · exact Native.readable_hex bytes
  · exact ⟨fun _ _ => trivial, fun s hs => by cases hs; decide⟩

theorem ecdsaDigest_survives (wanted op : String) (algorithm : Algorithm) (key : CryptoKey)
    (data : Source) :
    Survives (ecdsaDigest (hosted realm crates) wanted op algorithm key data) := by
  unfold ecdsaDigest
  refine bind_js fun name => ?_
  split
  · exact survives_refuse _ _
  · refine bind_js fun hash => ?_
    split
    · exact survives_refuse _ _
    · refine bind_js fun bytes => (survives_native realm crates ?_).bind fun digest _ =>
        bind_js fun curve => survives_pure _
      exact crates.digest_ends (fun _ _ => trivial) (Native.readable_hex bytes)

theorem ecdsaDigest_readable {wanted op : String} {algorithm : Algorithm} {key : CryptoKey}
    {data : Source} {trace : List NativeCall} {digest curve : JsVal}
    (h : (run (ecdsaDigest (hosted realm crates) wanted op algorithm key data) trace).1 =
      .ok (digest, curve)) : Native.Readable True digest := by
  have h : run (ecdsaDigest (hosted realm crates) wanted op algorithm key data) trace =
    (.ok (digest, curve), _) := Prod.ext h rfl
  unfold ecdsaDigest at h
  obtain ⟨name, -, h⟩ := run_js_bind_ok _ h
  split at h
  · cases h
  obtain ⟨hash, -, h⟩ := run_js_bind_ok _ h
  split at h
  · cases h
  obtain ⟨bytes, -, h⟩ := run_js_bind_ok _ h
  obtain ⟨answer, t, hanswer, h⟩ := run_bind_ok _ h
  obtain ⟨named, -, h⟩ := run_js_bind_ok _ h
  cases h
  exact digest_readable realm crates (congrArg Prod.fst hanswer)

theorem bind_rawOf {key : CryptoKey} {f : JsVal → Subtle α} (hf : Survives (f key.raw)) :
    Survives (rawOf key >>= f) := by
  unfold rawOf
  split
  · exact (survives_refuse _ _).bind fun _ h => by obtain ⟨trace, h⟩ := h; cases h
  · exact (survives_pure _).bind fun a h => by obtain ⟨trace, h⟩ := h; cases h; exact hf

variable {key : CryptoKey} (hkey : Native.Readable True key.raw)
include hkey

theorem sign_survives (algorithm : Algorithm) (data : Source) :
    Survives (sign (hosted realm crates) algorithm key data) := by
  unfold sign
  refine bind_js fun name => ?_
  split
  · refine (ecdsaDigest_survives realm crates _ _ _ _ _).bind fun ⟨digest, curve⟩ hpair => ?_
    obtain ⟨trace, hpair⟩ := hpair
    have hdigest := ecdsaDigest_readable realm crates hpair
    apply bind_rawOf
    refine (survives_native realm crates ?_).bind fun _ _ => survives_js _
    exact crates.sign_ends (fun _ _ => trivial) hkey hdigest
  · refine bind_js fun name => ?_
    split
    · exact survives_refuse _ _
    · refine bind_js fun hash => ?_
      apply bind_rawOf
      refine bind_js fun bytes => (survives_native realm crates ?_).bind fun tag _ => ?_
      · show Native.Ends True (crates.nativeHmac (.str hash) key.raw (.str (.hex bytes)) none)
        refine crates.hmac_ends (fun _ _ => trivial) hkey (Native.readable_hex bytes) fun t ht => ?_
        cases ht
      · split
        · exact survives_refuse _ _
        · exact survives_js _

theorem verify_survives (algorithm : Algorithm) (signature data : Source) :
    Survives (verify (hosted realm crates) algorithm key signature data) := by
  unfold verify
  refine bind_js fun name => ?_
  split
  · refine (ecdsaDigest_survives realm crates _ _ _ _ _).bind fun ⟨digest, curve⟩ hpair => ?_
    obtain ⟨trace, hpair⟩ := hpair
    have hdigest := ecdsaDigest_readable realm crates hpair
    apply bind_rawOf
    refine bind_js fun bytes => (survives_native realm crates ?_).bind fun _ _ => survives_pure _
    exact crates.verify_ends (fun _ _ => trivial) hkey hdigest (Native.readable_hex bytes)
  · refine bind_js fun name => ?_
    split
    · exact survives_refuse _ _
    · refine bind_js fun hash => ?_
      apply bind_rawOf
      refine bind_js fun bytes => bind_js fun tag =>
        (survives_native realm crates ?_).bind fun _ _ => survives_pure _
      show Native.Ends True (crates.nativeHmac (.str hash) key.raw (.str (.hex bytes))
        (some (.str (.hex tag))))
      refine crates.hmac_ends (fun _ _ => trivial) hkey (Native.readable_hex bytes) fun t ht => ?_
      rw [← Option.some.inj ht]
      exact Native.readable_hex tag

theorem aes_survives (op : AesOp) (algorithm : Algorithm) (data : Source) :
    Survives (aes (hosted realm crates) op algorithm key data) := by
  unfold aes
  refine bind_js fun name => ?_
  split
  · exact survives_refuse _ _
  · apply bind_rawOf
    refine bind_js fun iv => bind_js fun bytes =>
      (survives_native realm crates ?_).bind fun out _ => ?_
    · exact crates.aesGcm_ends op hkey (Native.readable_hex iv) (Native.readable_hex bytes)
    · split
      · exact survives_refuse _ _
      · split
        · exact survives_refuse _ _
        · exact survives_js _

omit hkey in
theorem exportKey_survives (format : FormatArg) :
    Survives (exportKey (hosted realm crates) format key) := by
  unfold exportKey
  refine bind_js fun text => ?_
  split
  · exact bind_js fun _ => survives_refuse _ _
  · split
    · exact survives_refuse _ _
    · refine bind_js fun name => ?_
      split
      · exact survives_refuse _ _
      · exact bind_rawOf (survives_js _)

end Subtle

def KeyUse.perform (realm : Realm) (key : CryptoKey) : KeyUse → Subtle Unit
  | .sign algorithm data => do let _ ← Subtle.sign realm algorithm key data
  | .verify algorithm signature data => do let _ ← Subtle.verify realm algorithm key signature data
  | .cipher op algorithm data => do let _ ← Subtle.aes realm op algorithm key data
  | .export format => do let _ ← Subtle.exportKey realm format key

theorem KeyUse.perform_survives (realm : Realm) (crates : CryptoCrates) {key : CryptoKey}
    (hkey : Native.Readable True key.raw) (use : KeyUse) :
    Subtle.Survives (use.perform (Subtle.hosted realm crates) key) := by
  cases use with
  | sign algorithm data =>
    exact (Subtle.sign_survives realm crates hkey _ _).bind fun _ _ => Subtle.survives_pure _
  | verify algorithm signature data =>
    exact (Subtle.verify_survives realm crates hkey _ _ _).bind fun _ _ => Subtle.survives_pure _
  | cipher op algorithm data =>
    exact (Subtle.aes_survives realm crates hkey _ _ _).bind fun _ _ => Subtle.survives_pure _
  | «export» format =>
    exact (Subtle.exportKey_survives realm crates _).bind fun _ _ => Subtle.survives_pure _

/-! ## the strings that do no harm -/

/-- a string that the host reads, and that every native answers and every key can hold -/
structure Harmless (realm : Realm) (crates : CryptoCrates) (forLabel : Text → Option Encoding)
    (s : JsString) : Prop where
  reads : fromHex (decodeLossy s.units) ≠ none
  /-- as an argument in digits, beside others that the host reads -/
  answered (call : HexCall) : s ∈ call.hexArgs →
    (∀ t ∈ call.hexArgs, t ≠ s → fromHex (decodeLossy t.units) ≠ none) →
    ∃ v, (call.answer crates forLabel).run = some (.ok v)
  /-- as the material of a key, which guest code may make -/
  held (key : CryptoKey) (use : KeyUse) : key.raw = .str s →
    Subtle.Survives (use.perform (Subtle.hosted realm crates) key)

/-- A string does no harm at the boundary exactly when no slice of `from_hex` cuts one of its
characters: when it has an odd number of bytes, or the first pair of bytes that is no number ends
where a character does. -/
theorem harmless_iff (realm : Realm) (crates : CryptoCrates) (forLabel : Text → Option Encoding)
    (s : JsString) : Harmless realm crates forLabel s ↔ ¬ Cut (decodeLossy s.units) := by
  rw [← fromHex_none_iff]
  refine ⟨fun h => h.reads, fun hreads =>
    ⟨hreads, fun call _ hothers => ?_, fun key use hraw => ?_⟩⟩
  · have hall : ∀ t ∈ call.hexArgs, fromHex (decodeLossy t.units) ≠ none := by
      intro t ht
      by_cases hts : t = s
      · rw [hts]
        exact hreads
      · exact hothers t ht hts
    obtain ⟨r, hrun, herror⟩ := call.answer_ends crates forLabel hall
    cases r with
    | ok v => exact ⟨v, hrun⟩
    | error e => exact (herror e rfl).elim
  · exact use.perform_survives realm crates (hraw ▸ Native.readable_str hreads)

/-- the digest of "€x" takes the worker down -/
theorem a_character_is_cut :
    ¬ Harmless (.ascii .inert) .inert (fun _ => none) (.lit "€x") ∧
      (HexCall.answer .inert (fun _ => none) (.digest (.lit "SHA-256") (.lit "€x"))).run = none := by
  have hnone : fromHex (decodeLossy (JsString.lit "€x").units) = none := by decide
  exact ⟨fun h => h.reads hnone, rfl⟩

end NovaRuntime
