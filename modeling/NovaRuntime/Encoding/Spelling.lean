import NovaRuntime.Crypto.HexText
import NovaRuntime.Lib.PrefixCode
import NovaRuntime.Script.Event

/-!
# Encodings that have a word for each character (`encoding.rs`)

* `Encoding.read`     what the host makes of the bytes of a chunk;
* `Encoding.Spells`   the characters of an encoding are the words of a prefix code;
* `read_pieces_iff`   pieces that are read one by one, against the whole;
* `utf16`             the two encodings of UTF-16, and `utf16_spells`.
-/

namespace NovaRuntime
open Lib

/-- the texts of letters, one after the other -/
def joined {α : Type} (text : α → JsString) (s : List α) : JsString where
  units := s.flatMap fun a => (text a).units
  small := by
    intro c hc
    obtain ⟨a, -, ha⟩ := List.mem_flatMap.mp hc
    exact (text a).small c ha

namespace Encoding

/-- what the host makes of the bytes of a chunk -/
def read (encoding : Encoding) (fatal ignoreBom : Bool) (bytes : List UInt8) : Option Text :=
  (if fatal then encoding.decodeFatal (encoding.withoutBom ignoreBom bytes)
    else some (encoding.decode (encoding.withoutBom ignoreBom bytes))).map JsString.units

/-- the bytes begin with the encoding's byte order mark -/
def StartsMarked (encoding : Encoding) (bytes : List UInt8) : Prop :=
  encoding.bom ≠ [] ∧ encoding.bom <+: bytes

/-- the bytes are well formed, and U+FFFD is not in their text -/
def Clean (encoding : Encoding) (bytes : List UInt8) : Prop :=
  ∃ out, encoding.decodeFatal bytes = some out ∧ replacement ∉ out.units

/-- The encoding has a word for each of its characters, and no word begins another: what it decodes
is what its words spell, and in anything else there is something to replace.  Its byte order mark, if
it has one, is the word of a character. -/
structure Spells {α : Type} (encoding : Encoding) (code : PrefixCode α UInt8)
    (text : α → JsString) (mark : Option α) : Prop where
  reads (bytes : List UInt8) (out : JsString) : encoding.decodeFatal bytes = some out ↔
    ∃ s, bytes = code.spell s ∧ out = joined text s
  replaces (bytes : List UInt8) (out : JsString) (h : encoding.decodeFatal bytes = some out) :
    encoding.decode bytes = out
  malformed (bytes : List UInt8) (h : encoding.decodeFatal bytes = none) :
    replacement ∈ (encoding.decode bytes).units
  bom_eq : encoding.bom = code.spell mark.toList
  mark_text (a : α) (h : mark = some a) : (text a).units ≠ []

/-! ## spelled pieces -/

section
variable {encoding : Encoding} {α : Type} {code : PrefixCode α UInt8} {text : α → JsString}
  {mark : Option α}

/-- the mark that a call drops -/
def dropped (mark : Option α) (ignoreBOM : Bool) : Option α := if ignoreBOM then none else mark

theorem starts_iff (h : encoding.Spells code text mark) (s : List α) :
    encoding.StartsMarked (code.spell s) ↔ Marked mark s := by
  rw [StartsMarked, h.bom_eq]
  cases mark with
  | none =>
    refine iff_of_false (fun hbom => hbom.1 rfl) ?_
    rintro ⟨a, ha, -⟩
    cases ha
  | some a =>
    have hword : code.spell [a] = code.word a := by
      rw [PrefixCode.spell_cons, PrefixCode.spell_nil, List.append_nil]
    show code.spell [a] ≠ [] ∧ code.spell [a] <+: code.spell s ↔ _
    rw [hword, code.word_prefix_spell, and_iff_right (code.ne_nil a)]
    constructor
    · intro hhead
      exact ⟨a, rfl, hhead⟩
    · rintro ⟨b, hb, hhead⟩
      cases hb
      exact hhead

theorem withoutBom_spell [DecidableEq α] (h : encoding.Spells code text mark) (ignoreBOM : Bool)
    (s : List α) : encoding.withoutBom ignoreBOM (code.spell s) =
      code.spell (unmarked (dropped mark ignoreBOM) s) := by
  unfold withoutBom dropped
  cases ignoreBOM with
  | true =>
    have hnot : ¬Marked none s := by
      rintro ⟨a, ha, -⟩
      cases ha
    rw [if_neg fun hbom => Bool.noConfusion hbom.2.1, if_pos rfl, unmarked_of_not hnot]
  | false =>
    rw [if_neg Bool.false_ne_true]
    by_cases hmarked : Marked mark s
    · obtain ⟨hne, hbegins⟩ := (starts_iff h s).mpr hmarked
      obtain ⟨a, rfl, hhead⟩ := hmarked
      obtain ⟨t, rfl⟩ := List.head?_eq_some_iff.mp hhead
      have hbom : encoding.bom = code.word a := by
        rw [h.bom_eq]
        exact List.append_nil _
      rw [if_pos ⟨hbegins, rfl, hne⟩, hbom, PrefixCode.spell_cons, List.drop_left, unmarked,
        if_pos rfl]
    · rw [unmarked_of_not hmarked, if_neg]
      rintro ⟨hbegins, -, hne⟩
      exact hmarked ((starts_iff h s).mp ⟨hne, hbegins⟩)

/-- What is spelled is read, but for its mark. -/
theorem read_spell [DecidableEq α] (h : encoding.Spells code text mark) (fatal ignoreBOM : Bool)
    (s : List α) : encoding.read fatal ignoreBOM (code.spell s) =
      some ((unmarked (dropped mark ignoreBOM) s).flatMap fun a => (text a).units) := by
  have hreads := (h.reads (code.spell (unmarked (dropped mark ignoreBOM) s)) _).mpr ⟨_, rfl, rfl⟩
  rw [read, withoutBom_spell h, hreads, h.replaces _ _ hreads]
  cases fatal <;> rfl

/-- With `fatal`, nothing else is. -/
theorem spelled_of_read (h : encoding.Spells code text mark) {ignoreBOM : Bool}
    {bytes : List UInt8} {out : Text} (hread : encoding.read true ignoreBOM bytes = some out) :
    code.Spelled bytes := by
  rw [read, if_pos rfl] at hread
  obtain ⟨s, hs, -⟩ := Option.map_eq_some_iff.mp hread
  obtain ⟨t, ht, -⟩ := (h.reads _ _).mp hs
  unfold withoutBom at ht
  split at ht
  · next hbom =>
    obtain ⟨rest, rfl⟩ := hbom.1
    rw [List.drop_left] at ht
    rw [ht, h.bom_eq, ← code.spell_append]
    exact ⟨_, rfl⟩
  · exact ⟨t, ht⟩

theorem mapM_spell [DecidableEq α] (h : encoding.Spells code text mark) (fatal ignoreBOM : Bool)
    (ss : List (List α)) :
    ((ss.map code.spell).mapM (encoding.read fatal ignoreBOM)).map List.flatten =
      some (ss.flatMap fun s =>
        (unmarked (dropped mark ignoreBOM) s).flatMap fun a => (text a).units) := by
  have hread : encoding.read fatal ignoreBOM ∘ code.spell = fun s =>
      some ((unmarked (dropped mark ignoreBOM) s).flatMap fun a => (text a).units) :=
    funext fun s => read_spell h fatal ignoreBOM s
  rw [List.mapM_map, hread]
  exact congrArg (Option.map List.flatten) List.mapM_pure

theorem unmarked_spell_iff (h : encoding.Spells code text mark) (ignoreBOM : Bool)
    (ss : List (List α)) :
    (∀ before s after, ss = before ++ s :: after → before.flatten ≠ [] →
        ¬Marked (dropped mark ignoreBOM) s) ↔
      ignoreBOM = true ∨ ∀ before x after, ss.map code.spell = before ++ x :: after →
        before.flatten ≠ [] → ¬encoding.StartsMarked x := by
  cases ignoreBOM with
  | true =>
    refine iff_of_true ?_ (.inl rfl)
    rintro before s after - - ⟨a, ha, -⟩
    cases ha
  | false =>
    rw [or_iff_right Bool.false_ne_true]
    show (∀ before s after, _ → _ → ¬Marked mark s) ↔ _
    constructor
    · intro hletters before x after heq hne
      obtain ⟨before, rest, rfl, rfl, hrest⟩ := List.map_eq_append_iff.mp heq
      obtain ⟨s, after, rfl, rfl, rfl⟩ := List.map_eq_cons_iff.mp hrest
      rw [starts_iff h]
      refine hletters before s after rfl fun hnil => hne ?_
      rw [← code.spell_flatten, hnil, code.spell_nil]
    · intro hbytes before s after heq hne
      rw [← starts_iff h]
      refine hbytes (before.map code.spell) (code.spell s) (after.map code.spell) ?_ fun hnil => hne ?_
      · rw [heq, List.map_append, List.map_cons]
      · rw [← code.spell_flatten] at hnil
        exact code.spell_eq_nil.mp hnil

/-- Without it, in anything else there is a replacement. -/
theorem replacement_mem_read (h : encoding.Spells code text mark) {ignoreBOM : Bool}
    {bytes : List UInt8} {out : Text} (hread : encoding.read false ignoreBOM bytes = some out)
    (hbytes : ¬code.Spelled bytes) : replacement ∈ out := by
  rw [read, if_neg Bool.false_ne_true] at hread
  cases hread
  refine h.malformed _ ?_
  cases hfatal : encoding.decodeFatal (encoding.withoutBom ignoreBOM bytes) with
  | none => rfl
  | some out =>
    have hread : encoding.read true ignoreBOM bytes = some out.units := by
      rw [read, if_pos rfl, hfatal]
      rfl
    exact absurd (spelled_of_read h hread) hbytes

/-- what is read of clean bytes has no replacement -/
theorem replacement_not_mem_read (h : encoding.Spells code text mark) {fatal ignoreBOM : Bool}
    {bytes : List UInt8} {out : Text} (hclean : encoding.Clean bytes)
    (hread : encoding.read fatal ignoreBOM bytes = some out) : replacement ∉ out := by
  classical
  obtain ⟨whole, hwhole, hnone⟩ := hclean
  obtain ⟨s, rfl, rfl⟩ := (h.reads _ _).mp hwhole
  rw [read_spell h] at hread
  cases hread
  intro hmem
  obtain ⟨a, ha, hunit⟩ := List.mem_flatMap.mp hmem
  exact hnone (List.mem_flatMap.mpr ⟨a, mem_unmarked ha, hunit⟩)

/-- Pieces that are read, with nothing replaced, are spelled. -/
theorem spelled_of_pieces (h : encoding.Spells code text mark) {fatal ignoreBOM : Bool}
    {xs : List (List UInt8)} {out : Text} (hclean : fatal = false → replacement ∉ out)
    (hpieces : (xs.mapM (encoding.read fatal ignoreBOM)).map List.flatten = some out) :
    ∀ x ∈ xs, code.Spelled x := by
  induction xs generalizing out with
  | nil => exact fun x hx => absurd hx List.not_mem_nil
  | cons x xs ih =>
    obtain ⟨outs, houts, rfl⟩ := Option.map_eq_some_iff.mp hpieces
    rw [List.mapM_cons] at houts
    obtain ⟨text, htext, houts⟩ := Option.bind_eq_some_iff.mp houts
    obtain ⟨texts, htexts, hcons⟩ := Option.bind_eq_some_iff.mp houts
    cases hcons
    rw [List.flatten_cons] at hclean
    refine List.forall_mem_cons.mpr ⟨?_, ih ?_ (by rw [htexts]; rfl)⟩
    · cases fatal with
      | true => exact spelled_of_read h htext
      | false =>
        by_contra hx
        exact hclean rfl (List.mem_append_left _ (replacement_mem_read h htext hx))
    · intro hfatal hmem
      exact hclean hfatal (List.mem_append_right _ hmem)

/-- Pieces that are read one by one come to the whole if each is spelled, and the mark of no later
one is lost. -/
theorem read_pieces_iff (h : encoding.Spells code text mark) (fatal ignoreBOM : Bool)
    (xs : List (List UInt8)) (hclean : fatal = false → encoding.Clean xs.flatten) :
    (∃ out, (xs.mapM (encoding.read fatal ignoreBOM)).map List.flatten = some out ∧
        encoding.read fatal ignoreBOM xs.flatten = some out) ↔
      (∀ x ∈ xs, code.Spelled x) ∧
        (ignoreBOM = true ∨ ∀ before x after, xs = before ++ x :: after →
          before.flatten ≠ [] → ¬encoding.StartsMarked x) := by
  classical
  have hspelled : (∀ x ∈ xs, code.Spelled x) →
      ((∃ out, (xs.mapM (encoding.read fatal ignoreBOM)).map List.flatten = some out ∧
          encoding.read fatal ignoreBOM xs.flatten = some out) ↔
        (ignoreBOM = true ∨ ∀ before x after, xs = before ++ x :: after →
          before.flatten ≠ [] → ¬encoding.StartsMarked x)) := by
    intro hall
    obtain ⟨ss, rfl⟩ := PrefixCode.exists_pieces hall
    have hmark : ∀ a, dropped mark ignoreBOM = some a → (text a).units ≠ [] := by
      intro a ha
      unfold dropped at ha
      split at ha
      · cases ha
      · exact h.mark_text a ha
    rw [mapM_spell h, ← code.spell_flatten, read_spell h, ← unmarked_spell_iff h,
      ← unmarked_pieces_iff hmark]
    constructor
    · rintro ⟨out, hpieces, hwhole⟩
      exact (Option.some.inj hpieces).trans (Option.some.inj hwhole).symm
    · intro heq
      exact ⟨_, rfl, congrArg some heq.symm⟩
  constructor
  · rintro ⟨out, hpieces, hwhole⟩
    have hall : ∀ x ∈ xs, code.Spelled x := spelled_of_pieces h
      (fun hfatal => replacement_not_mem_read h (hclean hfatal) hwhole) hpieces
    exact ⟨hall, (hspelled hall).mp ⟨out, hpieces, hwhole⟩⟩
  · rintro ⟨hall, hmarks⟩
    exact (hspelled hall).mpr hmarks

end

end Encoding

/-! ## UTF-16 -/

section
variable (big : Bool)

def unit (a b : UInt8) : Nat := if big then a.toNat * 256 + b.toNat else b.toNat * 256 + a.toNat

def unitBytes (u : Nat) : List UInt8 :=
  if big then [UInt8.ofNat (u / 256), UInt8.ofNat u] else [UInt8.ofNat u, UInt8.ofNat (u / 256)]

/-- the code units of bytes, if there are two for each -/
def unitsOf : List UInt8 → Option Text
  | [] => some []
  | [_] => none
  | a :: b :: rest => (unitsOf rest).map (unit big a b :: ·)

/-- the code units with a replacement for half of one, which takes a lead surrogate before it -/
def lossyUnits : List UInt8 → Text
  | [] => []
  | [_] => [replacement]
  | a :: b :: rest =>
    if isHigh (unit big a b) ∧ rest.length = 1 then [replacement]
    else unit big a b :: lossyUnits rest

def utf16 : Encoding where
  name := if big then .lit "UTF-16BE" else .lit "UTF-16LE"
  isUtf16Le := !big
  isUtf16Be := big
  decode bytes := .ofUnits (toWellFormed (lossyUnits big bytes))
  decodeFatal bytes := (unitsOf big bytes).bind fun us =>
    if toWellFormed us = us then some (.ofUnits us) else none

variable {big}

theorem unitBytes_unit (a b : UInt8) : unitBytes big (unit big a b) = [a, b] := by
  have ha := a.toNat_lt
  have hb := b.toNat_lt
  cases big with
  | true =>
    show [UInt8.ofNat ((a.toNat * 256 + b.toNat) / 256), UInt8.ofNat (a.toNat * 256 + b.toNat)] = _
    rw [show (a.toNat * 256 + b.toNat) / 256 = a.toNat by omega, UInt8.ofNat_toNat]
    refine congrArg (fun c => [a, c]) (UInt8.toNat_inj.mp ?_)
    rw [UInt8.toNat_ofNat']
    omega
  | false =>
    show [UInt8.ofNat (b.toNat * 256 + a.toNat), UInt8.ofNat ((b.toNat * 256 + a.toNat) / 256)] = _
    rw [show (b.toNat * 256 + a.toNat) / 256 = b.toNat by omega, UInt8.ofNat_toNat]
    refine congrArg (fun c => [c, b]) (UInt8.toNat_inj.mp ?_)
    rw [UInt8.toNat_ofNat']
    omega

theorem unitsOf_unitBytes {u : Nat} (h : u < 0x10000) (rest : List UInt8) :
    unitsOf big (unitBytes big u ++ rest) = (unitsOf big rest).map (u :: ·) := by
  have hlow : (UInt8.ofNat u).toNat = u % 256 := UInt8.toNat_ofNat'
  have hhigh : (UInt8.ofNat (u / 256)).toNat = u / 256 := by
    rw [UInt8.toNat_ofNat']
    omega
  have hunit : u / 256 * 256 + u % 256 = u := by omega
  cases big with
  | true =>
    show (unitsOf true rest).map (unit true (UInt8.ofNat (u / 256)) (UInt8.ofNat u) :: ·) = _
    rw [unit, if_pos rfl, hlow, hhigh, hunit]
  | false =>
    show (unitsOf false rest).map (unit false (UInt8.ofNat u) (UInt8.ofNat (u / 256)) :: ·) = _
    rw [unit, if_neg Bool.false_ne_true, hlow, hhigh, hunit]

theorem unitsOf_append {us : Text} (h : ∀ u ∈ us, u < 0x10000) (rest : List UInt8) :
    unitsOf big (us.flatMap (unitBytes big) ++ rest) = (unitsOf big rest).map (us ++ ·) := by
  induction us with
  | nil =>
    show unitsOf big rest = (unitsOf big rest).map id
    rw [Option.map_id, id]
  | cons u us ih =>
    rw [List.flatMap_cons, List.append_assoc, unitsOf_unitBytes (h u List.mem_cons_self),
      ih fun x hx => h x (List.mem_cons_of_mem _ hx), Option.map_map]
    rfl

theorem unitsOf_flatMap {us : Text} (h : ∀ u ∈ us, u < 0x10000) :
    unitsOf big (us.flatMap (unitBytes big)) = some us := by
  have happ : unitsOf big (us.flatMap (unitBytes big) ++ []) = (unitsOf big []).map (us ++ ·) :=
    unitsOf_append h []
  rw [List.append_nil] at happ
  rw [happ]
  exact congrArg some (List.append_nil us)

theorem of_unitsOf {bytes : List UInt8} {us : Text} (h : unitsOf big bytes = some us) :
    bytes = us.flatMap (unitBytes big) ∧ ∀ u ∈ us, u < 0x10000 := by
  induction bytes using unitsOf.induct generalizing us with
  | case1 =>
    cases h
    exact ⟨rfl, fun u hu => absurd hu List.not_mem_nil⟩
  | case2 a => cases h
  | case3 a b rest ih =>
    obtain ⟨us', hus, rfl⟩ := Option.map_eq_some_iff.mp h
    obtain ⟨hbytes, hsmall⟩ := ih hus
    have ha := a.toNat_lt
    have hb := b.toNat_lt
    refine ⟨?_, List.forall_mem_cons.mpr ⟨?_, hsmall⟩⟩
    · rw [List.flatMap_cons, unitBytes_unit, ← hbytes]
      rfl
    · unfold unit
      split <;> omega

theorem lossyUnits_eq {bytes : List UInt8} {us : Text} (h : unitsOf big bytes = some us) :
    lossyUnits big bytes = us := by
  induction bytes using unitsOf.induct generalizing us with
  | case1 =>
    cases h
    rfl
  | case2 a => cases h
  | case3 a b rest ih =>
    obtain ⟨us', hus, rfl⟩ := Option.map_eq_some_iff.mp h
    have heven : ¬(isHigh (unit big a b) ∧ rest.length = 1) := by
      rintro ⟨-, hone⟩
      obtain ⟨c, rfl⟩ := List.length_eq_one_iff.mp hone
      cases hus
    rw [lossyUnits, if_neg heven, ih hus]

theorem replacement_mem_lossyUnits {bytes : List UInt8} (h : unitsOf big bytes = none) :
    replacement ∈ lossyUnits big bytes := by
  induction bytes using unitsOf.induct with
  | case1 => cases h
  | case2 a => exact List.mem_cons_self
  | case3 a b rest ih =>
    rw [lossyUnits]
    split
    · exact List.mem_cons_self
    · exact List.mem_cons_of_mem _ (ih (Option.map_eq_none_iff.mp h))

theorem replacement_mem_ofUnits {us : Text} (h : replacement ∈ us) :
    replacement ∈ (JsString.ofUnits us).units := List.mem_map.mpr ⟨replacement, h, rfl⟩

variable (big) in
def pointBytes (c : Nat) : List UInt8 := (encodePoint c).flatMap (unitBytes big)

theorem encode_singleton (c : Nat) : encode [c] = encodePoint c := by
  rw [encode_cons, encode_nil, List.append_nil]

theorem scalars_singleton {c : Nat} (h : Scalar c) : Scalars [c] := by
  intro x hx
  rw [List.mem_singleton.mp hx]
  exact h

theorem unitsOf_pointBytes {c : Nat} (h : Scalar c) (rest : List UInt8) :
    unitsOf big (pointBytes big c ++ rest) = (unitsOf big rest).map (encodePoint c ++ ·) := by
  refine unitsOf_append ?_ rest
  rw [← encode_singleton]
  exact encode_small (scalars_singleton h)

theorem pointBytes_ne_nil {c : Nat} (h : Scalar c) : pointBytes big c ≠ [] := by
  intro hnil
  have hunits : unitsOf big (pointBytes big c ++ []) = (unitsOf big []).map (encodePoint c ++ ·) :=
    unitsOf_pointBytes h []
  rw [hnil] at hunits
  have hempty : encodePoint c ++ [] = [] := (Option.some.inj hunits).symm
  have hpoint := decodeLossy_encodePoint h []
  rw [hempty] at hpoint
  cases hpoint

theorem pointBytes_inj {c d : Nat} (hc : Scalar c) (hd : Scalar d)
    (h : pointBytes big c <+: pointBytes big d) : c = d := by
  obtain ⟨rest, hrest⟩ := h
  have hunits : unitsOf big (pointBytes big d ++ []) = (unitsOf big []).map (encodePoint d ++ ·) :=
    unitsOf_pointBytes hd []
  rw [List.append_nil, ← hrest, unitsOf_pointBytes hc] at hunits
  obtain ⟨us, -, hus⟩ := Option.map_eq_some_iff.mp hunits
  have hpoint := decodeLossy_encodePoint hc us
  rw [show encodePoint c ++ us = encodePoint d ++ [] from hus, decodeLossy_encodePoint hd] at hpoint
  exact (List.cons.inj hpoint).1.symm

end

abbrev ScalarValue := { c : Nat // Scalar c }

def utf16Code (big : Bool) : PrefixCode ScalarValue UInt8 where
  word c := pointBytes big c.1
  ne_nil c := pointBytes_ne_nil c.2
  prefixFree {c d} h := Subtype.ext (pointBytes_inj c.2 d.2 h)

def scalarText (c : ScalarValue) : JsString := .ofText [c.1] (scalars_singleton c.2)

def byteOrderMark : ScalarValue := ⟨0xFEFF, .inr ⟨by norm_num, by norm_num⟩⟩

theorem utf16Code_spell (big : Bool) (s : List ScalarValue) :
    (utf16Code big).spell s = (encode (s.map Subtype.val)).flatMap (unitBytes big) := by
  induction s with
  | nil => rfl
  | cons c s ih =>
    rw [PrefixCode.spell_cons, ih, List.map_cons, encode_cons, List.flatMap_append]
    rfl

theorem joined_scalarText (s : List ScalarValue) :
    (joined scalarText s).units = encode (s.map Subtype.val) := by
  show (s.flatMap fun c => encode [c.1]) = (s.map Subtype.val).flatMap encodePoint
  rw [List.flatMap_map]
  exact congrArg s.flatMap (funext fun c => encode_singleton c.1)

theorem scalars_val (s : List ScalarValue) : Scalars (s.map Subtype.val) := by
  intro x hx
  obtain ⟨c, -, rfl⟩ := List.mem_map.mp hx
  exact c.2

theorem exists_scalarValues {t : Text} (h : Scalars t) :
    ∃ s : List ScalarValue, s.map Subtype.val = t :=
  ⟨t.attachWith Scalar h, (List.attachWith_map_val h).trans (List.map_id t)⟩

theorem ofUnits_joined (s : List ScalarValue) :
    JsString.ofUnits (encode (s.map Subtype.val)) = joined scalarText s := by
  rw [JsString.mk.injEq, JsString.units_ofUnits (encode_small (scalars_val s)), joined_scalarText]

/-- UTF-16 has a word for each scalar value. -/
theorem utf16_spells (big : Bool) :
    (utf16 big).Spells (utf16Code big) scalarText (some byteOrderMark) where
  reads bytes out := by
    constructor
    · intro h
      obtain ⟨us, hus, hout⟩ := Option.bind_eq_some_iff.mp h
      obtain ⟨hbytes, hsmall⟩ := of_unitsOf hus
      split at hout
      · next hwell =>
        obtain ⟨s, hs⟩ := exists_scalarValues (scalars_decodeLossy us hsmall)
        have hencode : encode (s.map Subtype.val) = us := by
          rw [hs, ← toWellFormed_eq us hsmall, hwell]
        refine ⟨s, ?_, ?_⟩
        · rw [utf16Code_spell, hencode, hbytes]
        · rw [← ofUnits_joined, hencode]
          exact (Option.some.inj hout).symm
      · cases hout
    · rintro ⟨s, rfl, rfl⟩
      have hscalars := scalars_val s
      show ((unitsOf big ((utf16Code big).spell s)).bind fun us =>
        if toWellFormed us = us then some (JsString.ofUnits us) else none) = _
      rw [utf16Code_spell, unitsOf_flatMap (encode_small hscalars), Option.bind_some,
        if_pos (toWellFormed_encode hscalars), ofUnits_joined]
  replaces bytes out h := by
    obtain ⟨us, hus, hout⟩ := Option.bind_eq_some_iff.mp h
    split at hout
    · next hwell =>
      show JsString.ofUnits (toWellFormed (lossyUnits big bytes)) = out
      rw [lossyUnits_eq hus, hwell]
      exact Option.some.inj hout
    · cases hout
  malformed bytes h := by
    refine replacement_mem_ofUnits ?_
    cases hus : unitsOf big bytes with
    | none =>
      rcases toWellFormed_self_or (lossyUnits big bytes) with hself | hmem
      · rw [hself]
        exact replacement_mem_lossyUnits hus
      · exact hmem
    | some us =>
      have hill : toWellFormed us ≠ us := by
        intro hwell
        have hsome : (utf16 big).decodeFatal bytes = some (.ofUnits us) := by
          show (unitsOf big bytes).bind _ = _
          rw [hus, Option.bind_some, if_pos hwell]
        rw [hsome] at h
        cases h
      rw [lossyUnits_eq hus]
      exact (toWellFormed_self_or us).resolve_left hill
  bom_eq := by cases big <;> decide
  mark_text a ha := by
    cases ha
    decide

end NovaRuntime
