import NovaRuntime.Crypto.Boundary

/-!
# The codecs of hexadecimal text

Bytes cross between the two sides as digits, which both sides write and read.

* `CryptoJs.toHex`, `EncodingJs.toHex`   the guest's, in `crypto.js` and in `encoding.js`;
* `CryptoJs.fromHex`   the guest's way back;
* `RoundTrips`         what is written on either side is read back;
* `DecodesDigits`      the host reads digits, and nothing else.
-/

namespace NovaRuntime
open Lib

/-! ## the guest's codecs -/

/-- `n.toString(16)` -/
def toString16 (n : Nat) : Text := (Nat.toDigits 16 n).map Char.toNat

/-- `s.padStart(n, filler)`, of one character -/
def padStart (s : Text) (n filler : Nat) : Text := List.replicate (n - s.length) filler ++ s

def byteText (byte : UInt8) : Text := padStart (toString16 byte.toNat) 2 48

namespace CryptoJs

def toHex (bytes : List UInt8) : Text := bytes.foldl (fun hex byte => hex ++ byteText byte) []

def fromHex (hex : Text) : List UInt8 :=
  (List.range (hex.length / 2)).map fun i =>
    toUint8 (parseInt16 ((hex.take (i * 2 + 2)).drop (i * 2)))

end CryptoJs

namespace EncodingJs

def toHex (bytes : List UInt8) : Text :=
  (List.range bytes.length).foldl (fun hex i => hex ++ byteText (bytes.getD i 0)) []

end EncodingJs

theorem padStart_byte : ∀ n, n < 256 →
    padStart (toString16 n) 2 48 = [Json.hexChar (n / 16), Json.hexChar (n % 16)] := by
  decide +kernel

theorem byteText_eq (byte : UInt8) : byteText byte = Hex.ofByte byte := padStart_byte _ byte.toNat_lt

/-- The three ways to write bytes are one. -/
theorem crypto_toHex (bytes : List UInt8) : CryptoJs.toHex bytes = toHex bytes := by
  rw [CryptoJs.toHex, ← List.flatMap_eq_foldl, funext byteText_eq]
  rfl

theorem encoding_toHex (bytes : List UInt8) : EncodingJs.toHex bytes = toHex bytes := by
  have hindex : (List.range bytes.length).map (fun i => bytes.getD i 0) = bytes := by
    refine List.ext_getElem (by simp) fun i h h' => ?_
    simp [h']
  rw [EncodingJs.toHex, ← List.flatMap_eq_foldl, ← crypto_toHex, CryptoJs.toHex,
    ← List.flatMap_eq_foldl]
  conv_rhs => rw [← hindex, List.flatMap_map]

theorem crypto_fromHex (hex : Text) : CryptoJs.fromHex hex = bytesOfHex hex := by
  induction hex using bytesOfHex.induct with
  | case1 a b rest ih =>
    have hlength : (a :: b :: rest).length / 2 = rest.length / 2 + 1 := by
      rw [List.length_cons, List.length_cons]
      omega
    rw [CryptoJs.fromHex, hlength, List.range_succ_eq_map, List.map_cons, List.map_map, bytesOfHex, ← ih]
    refine congrArg (List.cons _) (List.map_congr_left fun i _ => ?_)
    show toUint8 (parseInt16 (((a :: b :: rest).take ((i + 1) * 2 + 2)).drop ((i + 1) * 2))) = _
    rw [Nat.succ_mul]
    rfl
  | case2 text h =>
    rcases text with - | ⟨a, - | ⟨b, rest⟩⟩
    · rfl
    · rw [CryptoJs.fromHex, List.length_singleton]
      rfl
    · exact absurd rfl (h a b rest)

/-! ## round trips -/

/-- bytes that are written on either side, and cross, are read back -/
structure RoundTrips (bytes : List UInt8) : Prop where
  crypto : fromHex (decodeLossy (CryptoJs.toHex bytes)) = some (some bytes)
  encoding : fromHex (decodeLossy (EncodingJs.toHex bytes)) = some (some bytes)
  host : fromHex (toHex bytes) = some (some bytes)
  guest : CryptoJs.fromHex (encode (toHex bytes)) = bytes

theorem roundTrips (bytes : List UInt8) : RoundTrips bytes := by
  have hcross : decodeLossy (toHex bytes) = toHex bytes :=
    Except.ok.inj (Option.some.inj (arg_hex bytes))
  have hself : encode (toHex bytes) = toHex bytes :=
    encode_bmp fun c hc => lt_trans (Hex.ofBytes_ascii bytes c hc) (by norm_num)
  exact
    { crypto := by rw [crypto_toHex, hcross, fromHex_toHex]
      encoding := by rw [encoding_toHex, hcross, fromHex_toHex]
      host := fromHex_toHex bytes
      guest := by rw [hself, crypto_fromHex, bytesOfHex_toHex] }

/-! ## what the host reads -/

/-- what is read is bytes -/
def ReadsBytes (read : Option (Option (List UInt8))) : Prop := ∃ bytes, read = some (some bytes)

/-- the host reads a text if it is digits, and then as the bytes that are written so -/
structure DecodesDigits (text : Text) : Prop where
  reads : ReadsBytes (fromHex text) ↔ Hex.Digits text
  written {bytes : List UInt8} : fromHex text = some (some bytes) → toHex bytes = text.map Hex.lower
  refuses : ¬Hex.Digits text → fromHex text = some none

theorem Number.size_sum {a b : Nat} {rest : Text} (h : Number a b) :
    ((a :: b :: rest).map utf8Size).sum = 2 + (rest.map utf8Size).sum := by
  rw [List.map_cons, List.map_cons, List.sum_cons, List.sum_cons, h.size.1, h.size.2, ← Nat.add_assoc]

theorem Numbers.even {text : Text} (h : Numbers text) : (text.map utf8Size).sum % 2 = 0 := by
  induction h with
  | nil => rfl
  | cons hnumber hrest ih => rw [hnumber.size_sum, Nat.add_mod_left, ih]

theorem numbers_cons_cons {a b : Nat} {rest : Text} :
    Numbers (a :: b :: rest) ↔ Number a b ∧ Numbers rest := by
  refine ⟨?_, fun h => .cons h.1 h.2⟩
  rintro ⟨⟩
  exact ⟨‹_›, ‹_›⟩

theorem not_readsBytes_refused : ¬ReadsBytes (some none) := by
  rintro ⟨bytes, h⟩
  cases h

theorem not_readsBytes_panic : ¬ReadsBytes none := by
  rintro ⟨bytes, h⟩
  cases h

theorem not_numbers_singleton (a : Nat) : ¬Numbers [a] := by
  intro h
  cases h

/-- The loop gives bytes exactly for numbers of a byte. -/
theorem slices_reads_iff (text : Text) : ReadsBytes (fromHex.slices text) ↔ Numbers text := by
  induction text using fromHex.slices.induct with
  | case1 => exact iff_of_true ⟨[], rfl⟩ .nil
  | case2 x hsize =>
    rw [fromHex.slices, if_pos hsize]
    exact iff_of_false not_readsBytes_refused (not_numbers_singleton x)
  | case3 x hsize =>
    rw [fromHex.slices, if_neg hsize]
    exact iff_of_false not_readsBytes_panic (not_numbers_singleton x)
  | case4 x y rest hsize =>
    rw [fromHex.slices, if_pos hsize, numbers_cons_cons]
    refine iff_of_false not_readsBytes_refused fun h => ?_
    have := h.1.size
    omega
  | case5 x y rest hsize hone hradix =>
    rw [fromHex.slices, if_neg hsize, if_pos hone, hradix, numbers_cons_cons, ← fromStrRadix_isSome,
      hradix]
    exact iff_of_false not_readsBytes_refused fun h => by cases h.1
  | case6 x y rest hsize hone byte hradix ih =>
    rw [fromHex.slices, if_neg hsize, if_pos hone, hradix, numbers_cons_cons, ← fromStrRadix_isSome,
      hradix, ← ih]
    constructor
    · rintro ⟨bytes, hbytes⟩
      obtain ⟨read, hread, hcons⟩ := Option.map_eq_some_iff.mp hbytes
      obtain ⟨bytes', rfl, -⟩ := Option.map_eq_some_iff.mp hcons
      exact ⟨rfl, bytes', hread⟩
    · rintro ⟨-, bytes, hbytes⟩
      exact ⟨byte :: bytes, by rw [hbytes]; rfl⟩
  | case7 x y rest hsize hone =>
    rw [fromHex.slices, if_neg hsize, if_neg hone, numbers_cons_cons]
    exact iff_of_false not_readsBytes_panic fun h => hone h.1.size

theorem fromHex_reads_iff (text : Text) : ReadsBytes (fromHex text) ↔ Numbers text := by
  unfold fromHex
  split
  · exact slices_reads_iff text
  · next hodd => exact iff_of_false not_readsBytes_refused fun h => hodd h.even

theorem digits_iff (text : Text) : Hex.Digits text ↔ Numbers text ∧ 43 ∉ text := by
  induction text using bytesOfHex.induct with
  | case1 a b rest ih =>
    rw [Hex.digits_cons_cons, numbers_cons_cons, ih, Number, List.mem_cons, List.mem_cons]
    have hdigit {c : Nat} (hc : (Json.hexVal c).isSome) : 43 ≠ c := by
      rintro rfl
      cases hc
    constructor
    · rintro ⟨ha, hb, hrest, hplus⟩
      refine ⟨⟨⟨.inr ha, hb⟩, hrest⟩, ?_⟩
      rintro (h | h | h)
      · exact hdigit ha h
      · exact hdigit hb h
      · exact hplus h
    · rintro ⟨⟨⟨ha, hb⟩, hrest⟩, hplus⟩
      have ha' : a ≠ 43 := fun h => hplus (.inl h.symm)
      exact ⟨ha.resolve_left ha', hb, hrest, fun h => hplus (.inr (.inr h))⟩
  | case2 text h =>
    rcases text with - | ⟨a, - | ⟨b, rest⟩⟩
    · exact iff_of_true Hex.digits_nil ⟨.nil, List.not_mem_nil⟩
    · exact iff_of_false (Hex.not_digits_singleton a) fun h => by cases h.1
    · exact absurd rfl (h a b rest)

theorem slices_digits {text : Text} (h : Hex.Digits text) :
    ∃ bytes, fromHex.slices text = some (some bytes) ∧ toHex bytes = text.map Hex.lower := by
  induction text using bytesOfHex.induct with
  | case1 a b rest ih =>
    have hnumbers : Number a b := (numbers_cons_cons.mp ((digits_iff _).mp h).1).1
    have hplus : a ≠ 43 := fun ha => ((digits_iff _).mp h).2 (by rw [ha]; exact List.mem_cons_self)
    obtain ⟨-, -, hrest⟩ := Hex.digits_cons_cons.mp h
    obtain ⟨bytes, hread, hwritten⟩ := ih hrest
    obtain ⟨byte, hbyte⟩ := Option.isSome_iff_exists.mp ((fromStrRadix_isSome a b).mpr hnumbers)
    refine ⟨byte :: bytes, ?_, ?_⟩
    · have hsize := hnumbers.size
      rw [fromHex.slices, if_neg (by omega), if_pos hsize, hbyte, hread]
      rfl
    · rw [fromStrRadix, if_neg hplus] at hbyte
      show Hex.ofByte byte ++ toHex bytes = _
      rw [Hex.ofByte_pair hbyte, hwritten]
      rfl
  | case2 text htext =>
    rcases text with - | ⟨a, - | ⟨b, rest⟩⟩
    · exact ⟨[], rfl, rfl⟩
    · exact absurd h (Hex.not_digits_singleton a)
    · exact absurd rfl (htext a b rest)

theorem fromHex_digits {text : Text} (h : Hex.Digits text) :
    ∃ bytes, fromHex text = some (some bytes) ∧ toHex bytes = text.map Hex.lower := by
  obtain ⟨bytes, hread, hwritten⟩ := slices_digits h
  have heven := ((digits_iff text).mp h).1.even
  exact ⟨bytes, by rw [fromHex, if_pos heven, hread], hwritten⟩

/-- Bytes that are written on either side are read back, and the host reads digits and nothing else,
unless a slice cuts a character or a byte is written with a sign. -/
theorem hex_codecs_agree (bytes : List UInt8) (text : Text) :
    RoundTrips bytes ∧ (DecodesDigits text ↔ ¬Cut text ∧ (Numbers text → 43 ∉ text)) := by
  refine ⟨roundTrips bytes, fun h => ⟨fun hcut => ?_, fun hnumbers => ?_⟩, ?_⟩
  · have hnone := (fromHex_none_iff text).mpr hcut
    have hdigits : ¬Hex.Digits text := by
      intro hdigits
      obtain ⟨bytes, hread, -⟩ := fromHex_digits hdigits
      rw [hnone] at hread
      cases hread
    have hrefused := h.refuses hdigits
    rw [hnone] at hrefused
    cases hrefused
  · exact ((digits_iff text).mp (h.reads.mp ((fromHex_reads_iff text).mpr hnumbers))).2
  · rintro ⟨hcut, hplus⟩
    have hdigits : Numbers text → Hex.Digits text := fun h => (digits_iff text).mpr ⟨h, hplus h⟩
    refine ⟨(fromHex_reads_iff text).trans ⟨hdigits, fun h => ((digits_iff text).mp h).1⟩,
      fun {bytes} hread => ?_, fun hother => ?_⟩
    · obtain ⟨bytes', hread', hwritten⟩ :=
        fromHex_digits (hdigits ((fromHex_reads_iff text).mp ⟨bytes, hread⟩))
      rw [hread] at hread'
      cases hread'
      exact hwritten
    · rcases hread : fromHex text with - | - | bytes
      · exact absurd ((fromHex_none_iff text).mp hread) hcut
      · rfl
      · exact absurd (hdigits ((fromHex_reads_iff text).mp ⟨bytes, hread⟩)) hother

/-- A sign is read as a digit is, and a longer character is not refused. -/
theorem a_sign_is_read :
    (fromHex (txt "+f") = some (some [15]) ∧ ¬DecodesDigits (txt "+f")) ∧
      fromHex (txt "€x") = none ∧ ¬DecodesDigits (txt "€x") := by
  have hread : fromHex (txt "+f") = some (some [15]) := by decide
  have hcut : fromHex (txt "€x") = none := by decide
  refine ⟨⟨hread, fun h => ?_⟩, hcut, fun h => ?_⟩
  · have hdigit := (h.reads.mp ⟨_, hread⟩).2 43 (by decide)
    cases hdigit
  · have hrefused := h.refuses fun hdigits => by
      have hdigit := hdigits.2 120 (by decide)
      cases hdigit
    rw [hcut] at hrefused
    cases hrefused

end NovaRuntime
