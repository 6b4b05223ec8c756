import Mathlib.Data.List.Basic
import Mathlib.Data.List.Flatten

/-!
# Text as code values, and UTF-16

A text is a list of code values.  The same type holds both kinds of string that meet at a
language boundary: a sequence of Unicode scalar values (`Scalars`), or a sequence of UTF-16 code
units, in which a surrogate may stand alone.

* `encode`       scalar values to UTF-16 code units;
* `decodeLossy`  code units back, every lone surrogate read as U+FFFD;
* `toWellFormed` the code units with every lone surrogate replaced by U+FFFD;
* `decodeLossy_encode`, `toWellFormed_encode`   both undo (or keep) an encoded text;
* `toWellFormed_eq`   a well-formed text is an encoded one;
* `characters`   the code units in pairs and single units, as a loop over a string meets them;
* `all_decodeLossy`   the properties of characters that decoding keeps.
-/

namespace Lib

/-- a string as its code values -/
abbrev Text := List Nat

/-- the code values of a literal -/
def txt (s : String) : Text := s.toList.map Char.toNat

def isHigh (c : Nat) : Bool := 0xD800 ≤ c && c ≤ 0xDBFF
def isLow (c : Nat) : Bool := 0xDC00 ≤ c && c ≤ 0xDFFF

def replacement : Nat := 0xFFFD

/-- a Unicode scalar value: a code point that is no surrogate -/
def Scalar (c : Nat) : Prop := c < 0xD800 ∨ 0xE000 ≤ c ∧ c < 0x110000

instance (c : Nat) : Decidable (Scalar c) := by unfold Scalar; infer_instance

/-- a text of scalar values, such as a Rust `String` -/
def Scalars (s : Text) : Prop := ∀ c ∈ s, Scalar c

instance (s : Text) : Decidable (Scalars s) := by unfold Scalars; infer_instance

theorem scalars_txt (s : String) : Scalars (txt s) := by
  intro c hc
  obtain ⟨ch, -, rfl⟩ := List.mem_map.mp hc
  rcases ch.valid with h | ⟨h, h'⟩
  · exact .inl h
  · exact .inr ⟨h, h'⟩

def encodePoint (c : Nat) : Text :=
  if c < 0x10000 then [c] else [0xD800 + (c - 0x10000) / 0x400, 0xDC00 + (c - 0x10000) % 0x400]

def encode (s : Text) : Text := s.flatMap encodePoint

def pairPoint (h l : Nat) : Nat := 0x10000 + (h - 0xD800) * 0x400 + (l - 0xDC00)

/-- code points of a code unit sequence, a lone surrogate read as `replacement` -/
def decodeLossy : Text → Text
  | [] => []
  | [c] => [if isHigh c || isLow c then replacement else c]
  | h :: l :: r =>
    if isHigh h && isLow l then pairPoint h l :: decodeLossy r
    else (if isHigh h || isLow h then replacement else h) :: decodeLossy (l :: r)

/-- `String.prototype.toWellFormed`, on code units -/
def toWellFormed : Text → Text
  | [] => []
  | [c] => [if isHigh c || isLow c then replacement else c]
  | h :: l :: r =>
    if isHigh h && isLow l then h :: l :: toWellFormed r
    else (if isHigh h || isLow h then replacement else h) :: toWellFormed (l :: r)

theorem encode_nil : encode [] = [] := rfl
theorem encode_cons (c : Nat) (s : Text) : encode (c :: s) = encodePoint c ++ encode s := rfl
theorem encode_append (s t : Text) : encode (s ++ t) = encode s ++ encode t := by
  simp [encode, List.flatMap_append]

theorem encodePoint_bmp {c : Nat} (h : c < 0x10000) : encodePoint c = [c] := by
  unfold encodePoint
  rw [if_pos h]

theorem encode_bmp {s : Text} (h : ∀ c ∈ s, c < 0x10000) : encode s = s := by
  induction s with
  | nil => rfl
  | cons c s ih =>
    rw [encode_cons, encodePoint_bmp (h c (by simp)), ih fun x hx => h x (by simp [hx])]
    rfl

theorem not_surrogate {c : Nat} (h : Scalar c) : isHigh c = false ∧ isLow c = false := by
  unfold Scalar at h
  simp only [isHigh, isLow, Bool.and_eq_false_iff, decide_eq_false_iff_not]
  omega

/-- a code unit that is no surrogate decodes to itself, whatever follows -/
theorem decodeLossy_plain {c : Nat} (hh : isHigh c = false) (hl : isLow c = false) (s : Text) :
    decodeLossy (c :: s) = c :: decodeLossy s := by
  cases s with
  | nil => simp [decodeLossy, hh, hl]
  | cons d r => simp [decodeLossy, hh, hl]

theorem toWellFormed_plain {c : Nat} (hh : isHigh c = false) (hl : isLow c = false) (s : Text) :
    toWellFormed (c :: s) = c :: toWellFormed s := by
  cases s with
  | nil => simp [toWellFormed, hh, hl]
  | cons d r => simp [toWellFormed, hh, hl]

/-- the two code units of a code point above U+FFFF are a surrogate pair and name it -/
theorem encodePoint_astral {c : Nat} (h : 0x10000 ≤ c) (hc : c < 0x110000) :
    ∃ hi lo, encodePoint c = [hi, lo] ∧ isHigh hi = true ∧ isLow lo = true ∧
      pairPoint hi lo = c := by
  refine ⟨0xD800 + (c - 0x10000) / 0x400, 0xDC00 + (c - 0x10000) % 0x400, ?_, ?_, ?_, ?_⟩
  · unfold encodePoint
    rw [if_neg (by omega)]
  · simp only [isHigh, Bool.and_eq_true, decide_eq_true_eq]
    omega
  · simp only [isLow, Bool.and_eq_true, decide_eq_true_eq]
    omega
  · unfold pairPoint
    omega

theorem decodeLossy_encodePoint {c : Nat} (hc : Scalar c) (r : Text) :
    decodeLossy (encodePoint c ++ r) = c :: decodeLossy r := by
  by_cases h : c < 0x10000
  · obtain ⟨hh, hl⟩ := not_surrogate hc
    rw [encodePoint_bmp h]
    exact decodeLossy_plain hh hl r
  · have hlt : c < 0x110000 := by unfold Scalar at hc; omega
    obtain ⟨hi, lo, he, h1, h2, hp⟩ := encodePoint_astral (by omega) hlt
    rw [he]
    simp [decodeLossy, h1, h2, hp]

theorem toWellFormed_encodePoint {c : Nat} (hc : Scalar c) (r : Text) :
    toWellFormed (encodePoint c ++ r) = encodePoint c ++ toWellFormed r := by
  by_cases h : c < 0x10000
  · obtain ⟨hh, hl⟩ := not_surrogate hc
    rw [encodePoint_bmp h]
    exact toWellFormed_plain hh hl r
  · have hlt : c < 0x110000 := by unfold Scalar at hc; omega
    obtain ⟨hi, lo, he, h1, h2, _⟩ := encodePoint_astral (by omega) hlt
    rw [he]
    simp [toWellFormed, h1, h2]

theorem Scalars.tail {c : Nat} {s : Text} (h : Scalars (c :: s)) : Scalars s :=
  fun x hx => h x (by simp [hx])

theorem Scalars.append {s t : Text} (hs : Scalars s) (ht : Scalars t) : Scalars (s ++ t) := by
  intro c hc
  rcases List.mem_append.mp hc with h | h
  · exact hs c h
  · exact ht c h

theorem decodeLossy_encode {s : Text} (h : Scalars s) : decodeLossy (encode s) = s := by
  induction s with
  | nil => rfl
  | cons c s ih =>
    rw [encode_cons, decodeLossy_encodePoint (h c (by simp)), ih h.tail]

/-- an encoded text has no lone surrogate to replace -/
theorem toWellFormed_encode {s : Text} (h : Scalars s) : toWellFormed (encode s) = encode s := by
  induction s with
  | nil => rfl
  | cons c s ih =>
    rw [encode_cons, toWellFormed_encodePoint (h c (by simp)), ih h.tail]

theorem encode_small {s : Text} (h : Scalars s) : ∀ u ∈ encode s, u < 0x10000 := by
  intro u hu
  obtain ⟨c, hc, hu⟩ := List.mem_flatMap.mp hu
  have hs := h c hc
  unfold Scalar at hs
  unfold encodePoint at hu
  split at hu
  · rw [List.mem_singleton.mp hu]
    omega
  · rcases List.mem_cons.mp hu with rfl | hu
    · omega
    · rw [List.mem_singleton.mp hu]
      omega

theorem scalar_replaced {c : Nat} (h : c < 0x10000) :
    Scalar (if isHigh c || isLow c then replacement else c) := by
  unfold Scalar replacement
  split
  · omega
  · next hno =>
    simp only [isHigh, isLow, Bool.or_eq_true, Bool.and_eq_true, decide_eq_true_eq] at hno
    omega

theorem scalar_pairPoint {h l : Nat} (hp : (isHigh h && isLow l) = true) :
    0x10000 ≤ pairPoint h l ∧ pairPoint h l < 0x110000 := by
  simp only [isHigh, isLow, Bool.and_eq_true, decide_eq_true_eq] at hp
  unfold pairPoint
  omega

theorem scalars_decodeLossy : ∀ s : Text, (∀ c ∈ s, c < 0x10000) → Scalars (decodeLossy s)
  | [], _ => by
    intro c hc
    cases hc
  | [c], h => by
    intro x hx
    rw [List.mem_singleton.mp hx]
    exact scalar_replaced (h c (by simp))
  | a :: b :: r, h => by
    rw [decodeLossy]
    split
    · next hp =>
      intro x hx
      rcases List.mem_cons.mp hx with hx | hx
      · obtain ⟨h1, h2⟩ := scalar_pairPoint hp
        rw [hx]
        exact .inr ⟨Nat.le_trans (by decide) h1, h2⟩
      · exact scalars_decodeLossy r (fun c hc => h c (by simp [hc])) x hx
    · intro x hx
      rcases List.mem_cons.mp hx with hx | hx
      · rw [hx]
        exact scalar_replaced (h a (by simp))
      · exact scalars_decodeLossy (b :: r) (fun c hc => h c (List.mem_cons_of_mem _ hc)) x hx

theorem encodePoint_pairPoint {h l : Nat} (hp : (isHigh h && isLow l) = true) :
    encodePoint (pairPoint h l) = [h, l] := by
  have hpoint := scalar_pairPoint hp
  simp only [isHigh, isLow, Bool.and_eq_true, decide_eq_true_eq] at hp
  have hhigh : 0xD800 + (pairPoint h l - 0x10000) / 0x400 = h := by
    unfold pairPoint
    omega
  have hlow : 0xDC00 + (pairPoint h l - 0x10000) % 0x400 = l := by
    unfold pairPoint
    omega
  rw [encodePoint, if_neg (by omega), hhigh, hlow]

theorem encodePoint_replaced {c : Nat} (h : c < 0x10000) :
    encodePoint (if isHigh c || isLow c then replacement else c) =
      [if isHigh c || isLow c then replacement else c] := by
  refine encodePoint_bmp ?_
  unfold replacement
  split <;> omega

/-- A well-formed text is an encoded one. -/
theorem toWellFormed_eq : ∀ s : Text, (∀ c ∈ s, c < 0x10000) →
    toWellFormed s = encode (decodeLossy s)
  | [], _ => rfl
  | [c], h => by
    rw [decodeLossy, encode_cons, encodePoint_replaced (h c (by simp))]
    rfl
  | a :: b :: r, h => by
    rw [toWellFormed, decodeLossy]
    split
    · next hp =>
      rw [encode_cons, encodePoint_pairPoint hp, toWellFormed_eq r fun c hc => h c (by simp [hc])]
      rfl
    · rw [encode_cons, encodePoint_replaced (h a (by simp)),
        toWellFormed_eq (b :: r) fun c hc => h c (List.mem_cons_of_mem _ hc)]
      rfl

/-- a text is well-formed, or a lone surrogate of it is replaced -/
theorem toWellFormed_self_or : ∀ s : Text, toWellFormed s = s ∨ replacement ∈ toWellFormed s
  | [] => .inl rfl
  | [c] => by
    rw [toWellFormed]
    split
    · exact .inr List.mem_cons_self
    · exact .inl rfl
  | h :: l :: r => by
    rw [toWellFormed]
    split
    · refine (toWellFormed_self_or r).imp (congrArg fun r => h :: l :: r) ?_
      intro hr
      exact List.mem_cons_of_mem _ (List.mem_cons_of_mem _ hr)
    · split
      · exact .inr List.mem_cons_self
      · exact (toWellFormed_self_or (l :: r)).imp (congrArg (List.cons h)) (List.mem_cons_of_mem _)

/-- A property that does not tell surrogates, U+FFFD and what lies above U+FFFF apart is kept. -/
theorem all_decodeLossy {p : Nat → Bool} {b : Bool}
    (hp : ∀ c, isHigh c = true ∨ isLow c = true ∨ c = replacement ∨ 0x10000 ≤ c → p c = b) :
    ∀ s : Text, (decodeLossy s).all p = s.all p
  | [] => rfl
  | [c] => by
    have hc : p (if isHigh c || isLow c then replacement else c) = p c := by
      split
      · next h =>
        rw [hp replacement (.inr (.inr (.inl rfl)))]
        exact (hp c ((Bool.or_eq_true_iff.mp h).imp id .inl)).symm
      · rfl
    simp only [decodeLossy, List.all_cons, List.all_nil, hc]
  | h :: l :: r => by
    rw [decodeLossy]
    split
    · next hpair =>
      obtain ⟨hh, hl⟩ := Bool.and_eq_true_iff.mp hpair
      rw [List.all_cons, all_decodeLossy hp r, List.all_cons, List.all_cons,
        hp _ (.inr (.inr (.inr (scalar_pairPoint hpair).1))), hp h (.inl hh), hp l (.inr (.inl hl))]
      cases b <;> rfl
    · rw [List.all_cons, all_decodeLossy hp (l :: r), List.all_cons (a := h)]
      congr 1
      split
      · next hsurrogate =>
        rw [hp replacement (.inr (.inr (.inl rfl)))]
        exact (hp h ((Bool.or_eq_true_iff.mp hsurrogate).imp id .inl)).symm
      · rfl

/-! ## the characters of a string -/

/-- what a loop over a string goes through: a surrogate pair, or one code unit -/
def characters : Text → List Text
  | [] => []
  | [c] => [[c]]
  | h :: l :: r =>
    if isHigh h && isLow l then [h, l] :: characters r else [h] :: characters (l :: r)

def codePointAt : Text → Nat
  | [] => 0
  | [c] => c
  | h :: l :: _ => if isHigh h && isLow l then pairPoint h l else h

/-- a surrogate read as `replacement` -/
def replaced (c : Nat) : Nat := if isHigh c || isLow c then replacement else c

theorem flatten_characters : ∀ s : Text, (characters s).flatten = s
  | [] => rfl
  | [_] => rfl
  | h :: l :: r => by
    rw [characters]
    split
    · rw [List.flatten_cons, flatten_characters r]
      rfl
    · rw [List.flatten_cons, flatten_characters (l :: r)]
      rfl

theorem characters_single {c : Nat} {r : Text} (h : ∀ l ∈ r.head?, (isHigh c && isLow l) = false) :
    characters (c :: r) = [c] :: characters r := by
  cases r with
  | nil => rfl
  | cons l r => rw [characters, h l rfl, if_neg (by decide)]

theorem pairPoint_replaced {h l : Nat} (hp : (isHigh h && isLow l) = true) :
    replaced (pairPoint h l) = pairPoint h l := by
  obtain ⟨hpoint, -⟩ := scalar_pairPoint hp
  rw [replaced, if_neg]
  simp only [isHigh, isLow, Bool.or_eq_true, Bool.and_eq_true, decide_eq_true_eq]
  omega

theorem decodeLossy_characters : ∀ s : Text,
    decodeLossy s = (characters s).map fun ch => replaced (codePointAt ch)
  | [] => rfl
  | [_] => rfl
  | h :: l :: r => by
    rw [decodeLossy, characters]
    split
    · next hp =>
      rw [decodeLossy_characters r, List.map_cons, codePointAt, if_pos hp, pairPoint_replaced hp]
    · rw [decodeLossy_characters (l :: r)]
      rfl

/-- The characters of a text are cut nowhere: where they are parted, each part has its own. -/
theorem characters_flatten : ∀ {s : Text} {pre post : List Text}, characters s = pre ++ post →
    characters pre.flatten = pre ∧ characters post.flatten = post
  | s, [], post, heq => by
    rw [List.nil_append] at heq
    rw [← heq, flatten_characters]
    exact ⟨rfl, rfl⟩
  | [], _ :: _, _, heq => by cases heq
  | [c], ch :: pre, post, heq => by
    obtain ⟨rfl, hrest⟩ := List.cons.inj heq
    obtain ⟨rfl, rfl⟩ := List.append_eq_nil_iff.mp hrest.symm
    exact ⟨rfl, rfl⟩
  | h :: l :: r, ch :: pre, post, heq => by
    rw [characters] at heq
    split at heq
    · next hp =>
      obtain ⟨rfl, hrest⟩ := List.cons.inj heq
      obtain ⟨hpre, hpost⟩ := characters_flatten hrest
      refine ⟨?_, hpost⟩
      show characters (h :: l :: pre.flatten) = _
      rw [characters, if_pos hp, hpre]
    · next hp =>
      obtain ⟨rfl, hrest⟩ := List.cons.inj heq
      obtain ⟨hpre, hpost⟩ := characters_flatten hrest
      refine ⟨?_, hpost⟩
      have hsplit : pre.flatten ++ post.flatten = l :: r := by
        have hflat := congrArg List.flatten hrest
        rw [flatten_characters] at hflat
        rw [← List.flatten_append]
        exact hflat.symm
      have hsingle : ∀ x ∈ pre.flatten.head?, (isHigh h && isLow x) = false := by
        intro x hx
        obtain ⟨t, ht⟩ := List.head?_eq_some_iff.mp hx
        rw [ht, List.cons_append] at hsplit
        rw [(List.cons.inj hsplit).1]
        exact Bool.eq_false_iff.mpr hp
      show characters (h :: pre.flatten) = _
      rw [characters_single hsingle, hpre]

/-- a character begins at this place: it is not between the halves of a pair -/
def Boundary (s : Text) (n : Nat) : Prop :=
  n ≤ s.length ∧ ∀ pre h l post, s = pre ++ h :: l :: post → pre.length + 1 = n →
    (isHigh h && isLow l) = false

theorem mem_characters : ∀ {s ch : Text}, ch ∈ characters s →
    (∃ c, ch = [c]) ∨ ∃ h l, ch = [h, l] ∧ (isHigh h && isLow l) = true
  | [], _, hch => by cases hch
  | [c], _, hch => .inl ⟨c, List.mem_singleton.mp hch⟩
  | h :: l :: r, ch, hch => by
    rw [characters] at hch
    split at hch
    · next hp =>
      rcases List.mem_cons.mp hch with rfl | hch
      · exact .inr ⟨h, l, rfl, hp⟩
      · exact mem_characters hch
    · rcases List.mem_cons.mp hch with rfl | hch
      · exact .inl ⟨h, rfl⟩
      · exact mem_characters hch

/-- a code unit is not both halves of a pair -/
theorem not_low_of_high {c : Nat} (h : isHigh c = true) : isLow c = false := by
  simp only [isHigh, isLow, Bool.and_eq_true, Bool.and_eq_false_iff, decide_eq_true_eq,
    decide_eq_false_iff_not] at h ⊢
  omega

theorem boundary_of_characters {s : Text} {pre post : List Text}
    (hs : characters s = pre ++ post) : Boundary s pre.flatten.length := by
  have hsplit : s = pre.flatten ++ post.flatten := by
    rw [← List.flatten_append, ← hs, flatten_characters]
  refine ⟨?_, fun left h l right heq hlen => Bool.eq_false_iff.mpr fun hp => ?_⟩
  · rw [hsplit, List.length_append]
    exact Nat.le_add_right _ _
  · obtain ⟨hh, hl⟩ := Bool.and_eq_true_iff.mp hp
    have hcut : left ++ [h] ++ (l :: right) = pre.flatten ++ post.flatten := by
      rw [← hsplit, heq, List.append_assoc]
      rfl
    obtain ⟨hleft, hright⟩ := List.append_inj hcut (by simpa using hlen)
    -- the last character before the cut is `h` alone, and so would begin a pair with `l`
    rcases List.eq_nil_or_concat pre with rfl | ⟨pre, ch, rfl⟩
    · simp at hleft
    · have hch : ch ∈ characters s := by
        rw [hs]
        simp
      have hlast : ch = [h] := by
        rw [List.concat_eq_append, List.flatten_append, List.flatten_singleton] at hleft
        rcases mem_characters hch with ⟨c, rfl⟩ | ⟨h', l', rfl, hp'⟩
        · exact (List.append_inj' hleft rfl).2.symm
        · have htail : left ++ [h] = (pre.flatten ++ [h']) ++ [l'] := by
            rw [hleft, List.append_assoc]
            rfl
          obtain rfl : h = l' := List.singleton_inj.mp (List.append_inj' htail rfl).2
          rw [not_low_of_high hh, Bool.and_false] at hp'
          cases hp'
      rw [hlast, List.concat_eq_append, List.append_assoc] at hs
      have hrest : characters (h :: l :: right) = [h] :: post := by
        have hown := (characters_flatten hs).2
        rwa [List.singleton_append, List.flatten_cons, ← hright] at hown
      rw [characters, if_pos hp] at hrest
      cases (List.cons.inj hrest).1

/-- The boundaries of a text are where its characters can be parted. -/
theorem Boundary.parted : ∀ {s : Text} {n : Nat}, Boundary s n →
    ∃ pre post, characters s = pre ++ post ∧ pre.flatten.length = n
  | s, 0, _ => ⟨[], characters s, rfl, rfl⟩
  | [], n + 1, ⟨hle, _⟩ => absurd hle (Nat.not_succ_le_zero n)
  | [c], n + 1, ⟨hle, _⟩ => by
    obtain rfl : n = 0 := Nat.le_zero.mp (Nat.le_of_succ_le_succ hle)
    exact ⟨[[c]], [], rfl, rfl⟩
  | h :: l :: r, n + 1, ⟨hle, hcut⟩ => by
    rw [characters]
    split
    · next hp =>
      cases n with
      | zero =>
        rw [hcut [] h l r rfl rfl] at hp
        cases hp
      | succ n =>
        have hrest : Boundary r n := by
          refine ⟨Nat.le_of_succ_le_succ (Nat.le_of_succ_le_succ hle), fun pre h' l' post heq hn => ?_⟩
          refine hcut (h :: l :: pre) h' l' post (by rw [heq]; rfl) ?_
          rw [List.length_cons, List.length_cons, ← hn]
        obtain ⟨pre, post, hparted, hlen⟩ := hrest.parted
        refine ⟨[h, l] :: pre, post, by rw [hparted]; rfl, ?_⟩
        rw [List.flatten_cons, List.length_append, hlen]
        exact Nat.add_comm 2 n
    · have hrest : Boundary (l :: r) n := by
        refine ⟨Nat.le_of_succ_le_succ hle, fun pre h' l' post heq hn => ?_⟩
        refine hcut (h :: pre) h' l' post (by rw [heq]; rfl) ?_
        rw [List.length_cons, ← hn]
      obtain ⟨pre, post, hparted, hlen⟩ := hrest.parted
      refine ⟨[h] :: pre, post, by rw [hparted]; rfl, ?_⟩
      rw [List.flatten_cons, List.length_append, hlen]
      exact Nat.add_comm 1 n

end Lib
