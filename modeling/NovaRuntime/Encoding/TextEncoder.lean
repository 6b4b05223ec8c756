import NovaRuntime.Encoding.Streaming
import NovaRuntime.Script.Value

/-!
# `TextEncoder` (`encoding.js`)

* `encode`       the bytes of a string, code point by code point;
* `encodeInto`   the loop that stops at the first character that does not fit;
* `decode_encode`, `encode_decode`   a decoder that keeps byte order marks undoes `encode`, but for
                 lone surrogates, and `encode` undoes a fatal one;
* `WritesPrefix` what a call of `encodeInto` leaves;
* `resume`       calls one after the other, each with what the one before it did not read.
-/

namespace NovaRuntime
open Lib

namespace TextEncoder

def push (code : Nat) : List Nat :=
  let code := if 0xd800 ≤ code ∧ code ≤ 0xdfff then replacement else code
  if code ≤ 0x7f then [code]
  else if code ≤ 0x7ff then [0xc0 ||| code >>> 6, 0x80 ||| code &&& 0x3f]
  else if code ≤ 0xffff then
    [0xe0 ||| code >>> 12, 0x80 ||| code >>> 6 &&& 0x3f, 0x80 ||| code &&& 0x3f]
  else
    [0xf0 ||| code >>> 18, 0x80 ||| code >>> 12 &&& 0x3f, 0x80 ||| code >>> 6 &&& 0x3f,
      0x80 ||| code &&& 0x3f]

def bytesOf (text : Text) : List Nat := (characters text).flatMap fun ch => push (codePointAt ch)

/-- `input === undefined ? '' : String(input)` -/
def inputText : JsVal → Js JsString
  | .undefined => .ok (.lit "")
  | input => input.toText

def encode (input : JsVal) : Js (List Nat) := (inputText input).map fun s => bytesOf s.units

/-- the counters of `encodeInto`, and what the destination holds -/
structure Progress where
  read : Nat
  written : Nat
  destination : List Nat

/-- `destination.set(encoded, at)` -/
def setBytes (destination encoded : List Nat) (at_ : Nat) : List Nat :=
  destination.take at_ ++ encoded ++ destination.drop (at_ + encoded.length)

def intoLoop (p : Progress) : List Text → Progress
  | [] => p
  | ch :: chs =>
    let encoded := bytesOf ch
    if p.destination.length < p.written + encoded.length then p
    else intoLoop
      { read := p.read + ch.length
        written := p.written + encoded.length
        destination := setBytes p.destination encoded p.written } chs

def intoBytes (text : Text) (destination : List Nat) : Progress :=
  intoLoop ⟨0, 0, destination⟩ (characters text)

def encodeInto (input : JsVal) (destination : List Nat) : Js Progress :=
  (inputText input).map fun s => intoBytes s.units destination

/-! ## the bytes of a code point -/

theorem or_add {n a b : Nat} (ha : a % 2 ^ n = 0) (hb : b < 2 ^ n) : a ||| b = a + b := by
  obtain ⟨k, rfl⟩ := Nat.dvd_of_mod_eq_zero ha
  rw [Nat.mul_comm, ← Nat.shiftLeft_eq, Nat.shiftLeft_add_eq_or_of_lt hb]

theorem tail_eq (n : Nat) : 0x80 ||| n &&& 0x3f = 0x80 + n % 64 := by
  rw [(TextDecoder.and_mask n).2.2.2, or_add (n := 6) rfl (Nat.mod_lt n (by decide) : n % 64 < 2 ^ 6)]

/-- The bits that are pushed are the encoding, a surrogate's that of U+FFFD. -/
theorem push_eq {code : Nat} (h : code < 0x110000) : push code = Utf8.bytes (replaced code) := by
  have hreplaced : (if 0xd800 ≤ code ∧ code ≤ 0xdfff then replacement else code) = replaced code := by
    unfold replaced
    refine if_congr ?_ rfl rfl
    simp only [isHigh, isLow, Bool.or_eq_true, Bool.and_eq_true, decide_eq_true_eq]
    omega
  have hlt : replaced code < 0x110000 := by
    unfold replaced replacement
    split <;> omega
  rw [push, hreplaced]
  generalize replaced code = c at hlt
  unfold Utf8.bytes
  simp only [tail_eq, Nat.shiftRight_eq_div_pow]
  by_cases h1 : c ≤ 0x7f
  · rw [if_pos h1, if_pos (by omega)]
  rw [if_neg h1, if_neg (by omega : ¬ c < 0x80)]
  by_cases h2 : c ≤ 0x7ff
  · rw [if_pos h2, if_pos (by omega : c < 0x800), or_add (n := 5) rfl (by omega)]
  rw [if_neg h2, if_neg (by omega : ¬ c < 0x800)]
  by_cases h3 : c ≤ 0xffff
  · rw [if_pos h3, if_pos (by omega : c < 0x10000), or_add (n := 4) rfl (by omega)]
  rw [if_neg h3, if_neg (by omega : ¬ c < 0x10000), or_add (n := 3) rfl (by omega)]

theorem codePointAt_lt {s : Text} (h : ∀ c ∈ s, c < 0x10000) : codePointAt s < 0x110000 := by
  cases s with
  | nil => decide
  | cons a r =>
    have ha : a < 0x10000 := h a List.mem_cons_self
    cases r with
    | nil =>
      show a < _
      omega
    | cons b r =>
      rw [codePointAt]
      split
      · next hp => exact (scalar_pairPoint hp).2
      · omega

theorem mem_of_characters {s ch : Text} (hch : ch ∈ characters s) : ∀ c ∈ ch, c ∈ s := by
  intro c hc
  rw [← flatten_characters s]
  exact List.mem_flatten.mpr ⟨ch, hch, hc⟩

/-- The bytes of a string are those of its scalar values. -/
theorem bytesOf_eq {s : Text} (h : ∀ c ∈ s, c < 0x10000) :
    bytesOf s = (decodeLossy s).flatMap Utf8.bytes := by
  rw [bytesOf, decodeLossy_characters, List.flatMap_map]
  refine List.flatMap_congr fun ch hch => push_eq (codePointAt_lt fun c hc => ?_)
  exact h c (mem_of_characters hch c hc)

/-! ## encoding and decoding -/

/-- A fresh decoder that keeps byte order marks gives the text of an encoding. -/
theorem decode_bytes (fatal : Bool) {chunk : Chunk} {cs : Text} (hcs : Scalars cs)
    (hbytes : chunk.bytes = cs.flatMap Utf8.bytes) :
    ((TextDecoder.utf8 fatal true).decode chunk.input false).1 = .ok (Lib.encode cs) := by
  have hknown : TextDecoder.BomKnown (.utf8 fatal true) [] := nofun
  have hwf : Utf8.WellFormed chunk.bytes := ⟨cs, hcs, hbytes⟩
  rcases TextDecoder.decode_last (TextDecoder.utf8_reading fatal true) hknown chunk with
    ⟨e, -, -, hbad⟩ | ⟨out, text, hok, hdecodes, -, htext⟩
  · exact absurd hwf hbad
  · have hout : out = cs := by
      rw [List.nil_append, List.nil_append, hbytes] at hdecodes
      exact hdecodes.unique (Utf8.decodesTo_bytes hcs)
    rw [hok, ← hout]
    exact congrArg Except.ok htext.symm

/-- For every string, any decoder that keeps byte order marks gives back what was encoded, with
U+FFFD for each lone surrogate; for every well-formed byte sequence, what a fatal one of these gives
is encoded to these bytes. -/
theorem utf8_round_trip (fatal : Bool) (s : JsString) (chunk : Chunk) :
    (encode (.str s) = .ok chunk.bytes →
      ((TextDecoder.utf8 fatal true).decode chunk.input false).1 = .ok (toWellFormed s.units)) ∧
    (Utf8.WellFormed chunk.bytes → ∃ t : JsString,
      ((TextDecoder.utf8 true true).decode chunk.input false).1 = .ok t.units ∧
        encode (.str t) = .ok chunk.bytes) := by
  constructor
  · intro hencode
    have hbytes : chunk.bytes = (decodeLossy s.units).flatMap Utf8.bytes := by
      rw [← bytesOf_eq s.small]
      exact (Except.ok.inj hencode).symm
    rw [decode_bytes fatal (scalars_decodeLossy _ s.small) hbytes, toWellFormed_eq _ s.small]
  · rintro ⟨cs, hcs, hbytes⟩
    refine ⟨⟨Lib.encode cs, encode_small hcs⟩, decode_bytes true hcs hbytes, ?_⟩
    show Except.ok (bytesOf (Lib.encode cs)) = _
    rw [bytesOf_eq (encode_small hcs), decodeLossy_encode hcs, hbytes]

/-- a byte order mark, characters of one to four bytes and a lone surrogate -/
def mixed : JsString := ⟨[0xfeff, 0x41, 0xe9, 0x20ac, 0xd83d, 0xde00, 0xd83d], by decide⟩

theorem utf8_round_trip_mixed :
    ((TextDecoder.utf8 false true).decode (Chunk.ofBytes (bytesOf mixed.units)).input false).1 =
        .ok [0xfeff, 0x41, 0xe9, 0x20ac, 0xd83d, 0xde00, 0xfffd] ∧
      ∃ t : JsString, ((TextDecoder.utf8 true true).decode
          (Chunk.ofBytes [0xef, 0xbb, 0xbf, 0x41]).input false).1 = .ok t.units ∧
        encode (.str t) = .ok [0xef, 0xbb, 0xbf, 0x41] := by
  have hwf : Utf8.WellFormed [0xef, 0xbb, 0xbf, 0x41] := ⟨[0xfeff, 0x41], by decide, by decide⟩
  exact ⟨(utf8_round_trip false mixed (.ofBytes (bytesOf mixed.units))).1 rfl,
    (utf8_round_trip true mixed (.ofBytes [0xef, 0xbb, 0xbf, 0x41])).2 hwf⟩

/-! ## encoding into a destination -/

theorem bytesOf_flatten {s : Text} {pre post : List Text} (h : characters s = pre ++ post) :
    bytesOf s = bytesOf pre.flatten ++ bytesOf post.flatten := by
  obtain ⟨hpre, hpost⟩ := characters_flatten h
  rw [bytesOf, bytesOf, bytesOf, h, hpre, hpost, List.flatMap_append]

/-- The loop of `encodeInto` went through `pre`, and `post` is to come. -/
structure Filled (text : Text) (destination : List Nat) (p : Progress) (pre post : List Text) :
    Prop where
  parted : characters text = pre ++ post
  read : p.read = pre.flatten.length
  written : p.written = (bytesOf pre.flatten).length
  fits : p.written ≤ destination.length
  destination : p.destination = bytesOf pre.flatten ++ destination.drop p.written

section
variable {text : Text} {destination : List Nat} {p : Progress} {pre post : List Text}

theorem Filled.length (h : Filled text destination p pre post) :
    p.destination.length = destination.length := by
  have hfits := h.fits
  rw [h.destination, List.length_append, List.length_drop, ← h.written]
  omega

theorem Filled.next {ch : Text} (h : Filled text destination p pre (ch :: post))
    (hfits : p.written + (bytesOf ch).length ≤ destination.length) :
    Filled text destination
      { read := p.read + ch.length
        written := p.written + (bytesOf ch).length
        destination := setBytes p.destination (bytesOf ch) p.written } (pre ++ [ch]) post := by
  have hparted : characters text = (pre ++ [ch]) ++ post := by
    rw [h.parted, List.append_assoc]
    rfl
  have hbytes : bytesOf (pre ++ [ch]).flatten = bytesOf pre.flatten ++ bytesOf ch := by
    have hsplit := bytesOf_flatten (characters_flatten hparted).1
    rwa [List.flatten_singleton] at hsplit
  refine ⟨hparted, ?_, ?_, hfits, ?_⟩
  · show p.read + ch.length = _
    rw [h.read, List.flatten_append, List.flatten_singleton, List.length_append]
  · show p.written + (bytesOf ch).length = _
    rw [hbytes, List.length_append, h.written]
  · show setBytes p.destination (bytesOf ch) p.written = _
    have hlen : (bytesOf pre.flatten).length = p.written := h.written.symm
    rw [setBytes, h.destination, hbytes, ← hlen, List.take_left, ← List.drop_drop, List.drop_left,
      List.drop_drop]

theorem intoLoop_filled {chs : List Text} (h : Filled text destination p pre chs) :
    ∃ pre' post', Filled text destination (intoLoop p chs) pre' post' ∧
      ∀ ch ∈ post'.head?, destination.length < (intoLoop p chs).written + (bytesOf ch).length := by
  induction chs generalizing p pre with
  | nil => exact ⟨pre, [], h, nofun⟩
  | cons ch chs ih =>
    rw [intoLoop]
    split
    · next hlong =>
      refine ⟨pre, ch :: chs, h, fun ch' hch => ?_⟩
      cases hch
      rwa [← h.length]
    · next hfits =>
      rw [h.length, Nat.not_lt] at hfits
      exact ih (h.next hfits)

end

/-- What a call of `encodeInto` leaves: the bytes of whole characters that the text begins with, as
many as fit. -/
structure WritesPrefix (text : Text) (destination : List Nat) (p : Progress) : Prop where
  boundary : Boundary text p.read
  written : p.written ≤ destination.length
  bytes : p.destination.take p.written = bytesOf (text.take p.read)
  rest : p.destination.drop p.written = destination.drop p.written
  length : p.destination.length = destination.length
  longest : p.read = text.length ∨ ∃ c r, decodeLossy (text.drop p.read) = c :: r ∧
    destination.length < p.written + (Utf8.bytes c).length

theorem intoBytes_writesPrefix {text : Text} (hsmall : ∀ c ∈ text, c < 0x10000)
    (destination : List Nat) : WritesPrefix text destination (intoBytes text destination) := by
  have hstart : Filled text destination ⟨0, 0, destination⟩ [] (characters text) :=
    ⟨rfl, rfl, rfl, Nat.zero_le _, rfl⟩
  obtain ⟨pre, post, h, hnext⟩ := intoLoop_filled hstart
  have hparts : text = pre.flatten ++ post.flatten := by
    rw [← List.flatten_append, ← h.parted, flatten_characters]
  have htake : text.take pre.flatten.length = pre.flatten := by
    rw [hparts, List.take_left]
  have hdrop : text.drop pre.flatten.length = post.flatten := by
    rw [hparts, List.drop_left]
  rw [intoBytes]
  refine ⟨?_, h.fits, ?_, ?_, h.length, ?_⟩
  · rw [h.read]
    exact boundary_of_characters h.parted
  · rw [h.destination, h.read, htake, h.written, List.take_left]
  · rw [h.destination, h.written, List.drop_left]
  · rw [h.read, hdrop]
    cases post with
    | nil =>
      refine .inl ?_
      rw [hparts, List.flatten_nil, List.append_nil]
    | cons ch post =>
      have hown := (characters_flatten h.parted).2
      refine .inr ⟨replaced (codePointAt ch), post.map fun ch => replaced (codePointAt ch), ?_, ?_⟩
      · rw [decodeLossy_characters, hown, List.map_cons]
      · have hch : ch ∈ characters text := by
          rw [h.parted]
          simp
        have hone : bytesOf ch = Utf8.bytes (replaced (codePointAt ch)) := by
          have hsingle : characters ch = [ch] := by
            have hparted : characters (ch :: post).flatten = [ch] ++ post := hown
            have hcut := (characters_flatten hparted).1
            rwa [List.flatten_singleton] at hcut
          rw [bytesOf, hsingle, List.flatMap_singleton, push_eq]
          exact codePointAt_lt fun c hc => hsmall c (mem_of_characters hch c hc)
        rw [← hone]
        exact hnext ch rfl

/-! ## calls that go on -/

/-- A call for each destination, with what the calls before it did not read: the bytes that each
wrote, and what is left of the text. -/
def resume : Text → List (List Nat) → List (List Nat) × Text
  | text, [] => ([], text)
  | text, destination :: destinations =>
    let p := intoBytes text destination
    let (pieces, rest) := resume (text.drop p.read) destinations
    (p.destination.take p.written :: pieces, rest)

section
variable {text : Text} {destination : List Nat} {p : Progress}

/-- what was read and what is left have the bytes of the whole -/
theorem WritesPrefix.parts (h : WritesPrefix text destination p) :
    bytesOf (text.take p.read) ++ bytesOf (text.drop p.read) = bytesOf text := by
  obtain ⟨pre, post, hparted, hlen⟩ := h.boundary.parted
  have hparts : text = pre.flatten ++ post.flatten := by
    rw [← List.flatten_append, ← hparted, flatten_characters]
  rw [bytesOf_flatten hparted, ← hlen]
  conv_lhs => rw [hparts, List.take_left, List.drop_left]

theorem bytes_length (c : Nat) : (Utf8.bytes c).length ≤ 4 := by
  unfold Utf8.bytes
  repeat' split
  all_goals simp

/-- A destination of four bytes takes a character. -/
theorem WritesPrefix.read_pos (h : WritesPrefix text destination p) (hne : text ≠ [])
    (hlen : 4 ≤ destination.length) : 0 < p.read := by
  by_contra hzero
  have hread : p.read = 0 := Nat.eq_zero_of_not_pos hzero
  rcases h.longest with hall | ⟨c, r, -, hlong⟩
  · rw [hread] at hall
    exact hne (List.eq_nil_of_length_eq_zero hall.symm)
  · have hbytes := h.bytes
    have hwritten : p.written = 0 := by
      have hlength := congrArg List.length hbytes
      rw [hread, List.take_zero, List.length_take, h.length] at hlength
      have hfits := h.written
      have hnone : (bytesOf []).length = 0 := rfl
      omega
    have hfour := bytes_length c
    omega

end

theorem resume_eq {text : Text} (hsmall : ∀ c ∈ text, c < 0x10000) (ds : List (List Nat)) :
    (resume text ds).1.flatten ++ bytesOf (resume text ds).2 = bytesOf text ∧
      ((∀ d ∈ ds, 4 ≤ d.length) → text.length ≤ ds.length → (resume text ds).2 = []) := by
  induction ds generalizing text with
  | nil => exact ⟨rfl, fun _ hlen => List.eq_nil_of_length_eq_zero (Nat.le_zero.mp hlen)⟩
  | cons d ds ih =>
    have hwrites := intoBytes_writesPrefix hsmall d
    have hsmallRest : ∀ c ∈ text.drop (intoBytes text d).read, c < 0x10000 :=
      fun c hc => hsmall c (List.mem_of_mem_drop hc)
    obtain ⟨hrest, hends⟩ := ih hsmallRest
    constructor
    · show ((intoBytes text d).destination.take (intoBytes text d).written ::
        (resume (text.drop (intoBytes text d).read) ds).1).flatten ++ _ = _
      rw [List.flatten_cons, List.append_assoc]
      refine (congrArg _ hrest).trans ?_
      rw [hwrites.bytes, hwrites.parts]
    · intro hds hlen
      obtain ⟨hd, hds⟩ := List.forall_mem_cons.mp hds
      refine hends hds ?_
      by_cases hne : text = []
      · rw [hne, List.drop_nil]
        exact Nat.zero_le _
      · have hpos := hwrites.read_pos hne hd
        rw [List.length_cons] at hlen
        rw [List.length_drop]
        omega

/-- For every string and destination, a call of `encodeInto` writes the longest prefix of whole
characters that fits, and calls with what is left, into destinations of four bytes or more, come to
the end of the string and write its bytes. -/
theorem encodeInto_writes_longest (s : JsString) :
    (∀ destination, ∃ p, encodeInto (.str s) destination = .ok p ∧
        WritesPrefix s.units destination p) ∧
      ∀ destinations : List (List Nat), (∀ d ∈ destinations, 4 ≤ d.length) →
        s.units.length ≤ destinations.length →
          (resume s.units destinations).2 = [] ∧
            encode (.str s) = .ok (resume s.units destinations).1.flatten := by
  refine ⟨fun destination => ⟨_, rfl, intoBytes_writesPrefix s.small destination⟩, ?_⟩
  intro destinations hlen hmany
  obtain ⟨hbytes, hends⟩ := resume_eq s.small destinations
  refine ⟨hends hlen hmany, ?_⟩
  show Except.ok (bytesOf s.units) = _
  rw [← hbytes, hends hlen hmany]
  exact congrArg Except.ok (List.append_nil _)

theorem encodeInto_writes_longest_mixed :
    (∃ p, encodeInto (.str mixed) [0, 0, 0, 0, 9] = .ok p ∧
        WritesPrefix mixed.units [0, 0, 0, 0, 9] p) ∧
      (resume mixed.units (List.replicate 7 [0, 0, 0, 0])).2 = [] ∧
        encode (.str mixed) =
          .ok (resume mixed.units (List.replicate 7 [0, 0, 0, 0])).1.flatten :=
  ⟨(encodeInto_writes_longest mixed).1 [0, 0, 0, 0, 9],
    (encodeInto_writes_longest mixed).2 (List.replicate 7 [0, 0, 0, 0]) (by decide) (by decide)⟩

end TextEncoder

end NovaRuntime
