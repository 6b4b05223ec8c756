import NovaRuntime.Lib.Text

/-!
# UTF-8

The encoding of scalar values, the byte sequences it makes, and what a decoder gives for bytes that
are no encoding.

* `bytes`        the encoding of one code point;
* `Sequence`     the well-formed byte sequences, by their ranges, with the code point of each;
* `Begins`       the bytes that some encoding starts with;
* `Unfinished`      those after which more bytes must follow;
* `WellFormed`   the byte sequences that encode a text;
* `DecodesTo`      the text of any bytes: U+FFFD for each maximal part of an encoding that is cut
                 short, and for each other byte; there is one such text (`DecodesTo.unique`).
-/

namespace Lib
namespace Utf8

def bytes (c : Nat) : List Nat :=
  if c < 0x80 then [c]
  else if c < 0x800 then [0xC0 + c / 64, 0x80 + c % 64]
  else if c < 0x10000 then [0xE0 + c / 4096, 0x80 + c / 64 % 64, 0x80 + c % 64]
  else [0xF0 + c / 262144, 0x80 + c / 4096 % 64, 0x80 + c / 64 % 64, 0x80 + c % 64]

def Tail (b : Nat) : Prop := 0x80 ≤ b ∧ b ≤ 0xBF

/-- the second byte after the first byte `a`: some would make the sequence too long, name a surrogate
or pass U+10FFFF -/
def Second (a b : Nat) : Prop :=
  Tail b ∧ (a = 0xE0 → 0xA0 ≤ b) ∧ (a = 0xED → b ≤ 0x9F) ∧ (a = 0xF0 → 0x90 ≤ b) ∧
    (a = 0xF4 → b ≤ 0x8F)

/-- the well-formed byte sequences and their code points -/
inductive Sequence : List Nat → Nat → Prop where
  | one {a} (ha : a ≤ 0x7F) : Sequence [a] a
  | two {a b} (ha : 0xC2 ≤ a ∧ a ≤ 0xDF) (hb : Second a b) :
      Sequence [a, b] (a % 32 * 64 + b % 64)
  | three {a b c} (ha : 0xE0 ≤ a ∧ a ≤ 0xEF) (hb : Second a b) (hc : Tail c) :
      Sequence [a, b, c] ((a % 16 * 64 + b % 64) * 64 + c % 64)
  | four {a b c d} (ha : 0xF0 ≤ a ∧ a ≤ 0xF4) (hb : Second a b) (hc : Tail c) (hd : Tail d) :
      Sequence [a, b, c, d] (((a % 8 * 64 + b % 64) * 64 + c % 64) * 64 + d % 64)

theorem sequence_bytes {c : Nat} (h : Scalar c) : Sequence (bytes c) c := by
  unfold Scalar at h
  unfold bytes
  split
  · next h1 => exact .one (by omega)
  · next h1 =>
    split
    · next h2 =>
      have hseq := Sequence.two (a := 0xC0 + c / 64) (b := 0x80 + c % 64) (by omega)
        (by unfold Second Tail; omega)
      have hval : (0xC0 + c / 64) % 32 * 64 + (0x80 + c % 64) % 64 = c := by omega
      rwa [hval] at hseq
    · next h2 =>
      split
      · next h3 =>
        have hseq := Sequence.three (a := 0xE0 + c / 4096) (b := 0x80 + c / 64 % 64)
          (c := 0x80 + c % 64) (by omega) (by unfold Second Tail; omega) (by unfold Tail; omega)
        have hval : ((0xE0 + c / 4096) % 16 * 64 + (0x80 + c / 64 % 64) % 64) * 64 +
            (0x80 + c % 64) % 64 = c := by omega
        rwa [hval] at hseq
      · next h3 =>
        have hseq := Sequence.four (a := 0xF0 + c / 262144) (b := 0x80 + c / 4096 % 64)
          (c := 0x80 + c / 64 % 64) (d := 0x80 + c % 64) (by omega) (by unfold Second Tail; omega)
          (by unfold Tail; omega) (by unfold Tail; omega)
        have hval : (((0xF0 + c / 262144) % 8 * 64 + (0x80 + c / 4096 % 64) % 64) * 64 +
            (0x80 + c / 64 % 64) % 64) * 64 + (0x80 + c % 64) % 64 = c := by omega
        rwa [hval] at hseq

theorem bytes_of_sequence {bs : List Nat} {c : Nat} (h : Sequence bs c) :
    Scalar c ∧ bytes c = bs := by
  unfold Scalar bytes
  cases h with
  | one ha => simp only [show c < 0x80 by omega, ↓reduceIte, and_true]; omega
  | @two a b ha hb =>
    unfold Second Tail at hb
    refine ⟨by omega, ?_⟩
    rw [if_neg (by omega), if_pos (by omega), show 0xC0 + (a % 32 * 64 + b % 64) / 64 = a by omega,
      show 0x80 + (a % 32 * 64 + b % 64) % 64 = b by omega]
  | @three a b c ha hb hc =>
    unfold Second Tail at hb
    unfold Tail at hc
    generalize hx : (a % 16 * 64 + b % 64) * 64 + c % 64 = x
    refine ⟨by omega, ?_⟩
    rw [if_neg (by omega), if_neg (by omega), if_pos (by omega), show 0xE0 + x / 4096 = a by omega,
      show 0x80 + x / 64 % 64 = b by omega, show 0x80 + x % 64 = c by omega]
  | @four a b c d ha hb hc hd =>
    unfold Second Tail at hb
    unfold Tail at hc hd
    generalize hx : ((a % 8 * 64 + b % 64) * 64 + c % 64) * 64 + d % 64 = x
    refine ⟨by omega, ?_⟩
    rw [if_neg (by omega), if_neg (by omega), if_neg (by omega),
      show 0xF0 + x / 262144 = a by omega, show 0x80 + x / 4096 % 64 = b by omega,
      show 0x80 + x / 64 % 64 = c by omega, show 0x80 + x % 64 = d by omega]

/-! ## the beginnings of sequences -/

/-- the bytes with which the encoding of some scalar value begins -/
def Begins (sub : List Nat) : Prop := ∃ c, Scalar c ∧ sub <+: bytes c

/-- the bytes of an encoding that is not over -/
inductive Unfinished : List Nat → Prop where
  | nil : Unfinished []
  | lead {a} (ha : 0xC2 ≤ a ∧ a ≤ 0xF4) : Unfinished [a]
  | second {a b} (ha : 0xE0 ≤ a ∧ a ≤ 0xF4) (hb : Second a b) : Unfinished [a, b]
  | third {a b c} (ha : 0xF0 ≤ a ∧ a ≤ 0xF4) (hb : Second a b) (hc : Tail c) : Unfinished [a, b, c]

theorem Sequence.begins {bs sub : List Nat} {c : Nat} (h : Sequence bs c) (hs : sub <+: bs) :
    Begins sub := by
  obtain ⟨hc, rfl⟩ := bytes_of_sequence h
  exact ⟨c, hc, hs⟩

theorem begins_iff {sub : List Nat} : Begins sub ↔ ∃ bs c, Sequence bs c ∧ sub <+: bs := by
  constructor
  · rintro ⟨c, hc, hs⟩
    exact ⟨bytes c, c, sequence_bytes hc, hs⟩
  · rintro ⟨bs, c, h, hs⟩
    exact h.begins hs

theorem Begins.shorter {sub longer : List Nat} (h : Begins longer) (hs : sub <+: longer) :
    Begins sub := by
  obtain ⟨c, hc, hp⟩ := h
  exact ⟨c, hc, hs.trans hp⟩

/-- every first byte has a second one -/
theorem exists_second (a : Nat) : ∃ b, Second a b := by
  by_cases h : a = 0xE0 ∨ a = 0xF0
  · exact ⟨0xA0, by unfold Second Tail; omega⟩
  · exact ⟨0x80, by unfold Second Tail; omega⟩

theorem Unfinished.begins {sub : List Nat} (h : Unfinished sub) : Begins sub := by
  have htail : Tail 0x80 := by
    unfold Tail
    omega
  cases h with
  | nil => exact (Sequence.one (a := 0) (by omega)).begins List.nil_prefix
  | @lead a ha =>
    obtain ⟨b, hb⟩ := exists_second a
    rcases Nat.lt_or_ge a 0xE0 with h1 | h1
    · exact (Sequence.two (by omega) hb).begins (by simp)
    · rcases Nat.lt_or_ge a 0xF0 with h2 | h2
      · exact (Sequence.three (by omega) hb htail).begins (by simp)
      · exact (Sequence.four (by omega) hb htail htail).begins (by simp)
  | @second a b ha hb =>
    rcases Nat.lt_or_ge a 0xF0 with h2 | h2
    · exact (Sequence.three (by omega) hb htail).begins (by simp)
    · exact (Sequence.four (by omega) hb htail htail).begins (by simp)
  | third ha hb hc => exact (Sequence.four ha hb hc htail).begins (by simp)

/-- An encoding is over only with its last byte. -/
theorem Unfinished.incomplete {sub : List Nat} (h : Unfinished sub) {c : Nat} (hc : Scalar c) :
    ¬ bytes c <+: sub := by
  have hseq := sequence_bytes hc
  generalize bytes c = bs at hseq
  cases h <;> cases hseq <;> simp <;> omega

/-- whether a byte goes on with the encoding that these begin -/
def Continues : List Nat → Nat → Prop
  | [], b => b ≤ 0x7F ∨ 0xC2 ≤ b ∧ b ≤ 0xF4
  | [a], b => Second a b
  | _ :: _ :: _, b => Tail b

theorem Unfinished.not_begins {sub : List Nat} (h : Unfinished sub) {b : Nat} (hb : ¬ Continues sub b) :
    ¬ Begins (sub ++ [b]) := by
  rw [begins_iff]
  rintro ⟨bs, c, hseq, hp⟩
  refine hb ?_
  cases h with
  | nil =>
    cases hseq <;> simp only [List.nil_append, List.cons_prefix_cons, List.nil_prefix, and_true] at hp
      <;> simp only [Continues] <;> omega
  | lead ha =>
    cases hseq <;> simp only [List.singleton_append, List.cons_prefix_cons, List.nil_prefix,
      List.prefix_nil, and_true, reduceCtorEq, and_false] at hp
    all_goals
      obtain ⟨rfl, rfl⟩ := hp
      assumption
  | second ha hb =>
    cases hseq <;> simp only [List.cons_append, List.nil_append, List.cons_prefix_cons,
      List.nil_prefix, List.prefix_nil, and_true, reduceCtorEq, and_false] at hp
    all_goals
      obtain ⟨rfl, rfl, rfl⟩ := hp
      assumption
  | third ha hb hc =>
    cases hseq <;> simp only [List.cons_append, List.nil_append, List.cons_prefix_cons,
      List.prefix_nil, and_true, reduceCtorEq, and_false] at hp
    obtain ⟨rfl, rfl, rfl, rfl⟩ := hp
    assumption

/-! ## well-formed texts -/

def WellFormed (bs : List Nat) : Prop := ∃ cs, Scalars cs ∧ bs = cs.flatMap bytes

theorem bytes_ne_nil (c : Nat) : bytes c ≠ [] := by
  unfold bytes
  split
  · simp
  · split
    · simp
    · split <;> simp

theorem eq_of_initial {c c' : Nat} (hc : Scalar c) (hc' : Scalar c') (h : bytes c <+: bytes c') :
    c = c' := by
  have hseq := sequence_bytes hc
  have hseq' := sequence_bytes hc'
  generalize bytes c = bs at hseq h
  generalize bytes c' = bs' at hseq' h
  cases hseq <;> cases hseq' <;>
    simp only [List.cons_prefix_cons, List.nil_prefix, List.prefix_nil, and_true, reduceCtorEq,
      and_false] at h
  all_goals omega

theorem eq_of_bytes_append {c c' : Nat} (hc : Scalar c) (hc' : Scalar c') {r r' : List Nat}
    (h : bytes c ++ r = bytes c' ++ r') : c = c' := by
  rcases List.append_eq_append_iff.mp h with ⟨as, h, -⟩ | ⟨as, h, -⟩
  · exact eq_of_initial hc hc' ⟨as, h.symm⟩
  · exact (eq_of_initial hc' hc ⟨as, h.symm⟩).symm

theorem WellFormed.nil : WellFormed [] := ⟨[], by simp [Scalars], rfl⟩

theorem wellFormed_cons {c : Nat} (hc : Scalar c) {rest : List Nat} :
    WellFormed (bytes c ++ rest) ↔ WellFormed rest := by
  constructor
  · rintro ⟨cs, hcs, heq⟩
    cases cs with
    | nil => exact absurd (List.append_eq_nil_iff.mp heq).1 (bytes_ne_nil c)
    | cons c' cs =>
      rw [List.flatMap_cons] at heq
      have hc' : Scalar c' := hcs c' List.mem_cons_self
      have hsame := eq_of_bytes_append hc hc' heq
      subst hsame
      exact ⟨cs, hcs.tail, List.append_cancel_left heq⟩
  · rintro ⟨cs, hcs, rfl⟩
    exact ⟨c :: cs, List.forall_mem_cons.mpr ⟨hc, hcs⟩, rfl⟩

theorem wellFormed_append {cs : List Nat} (hcs : Scalars cs) {rest : List Nat} :
    WellFormed (cs.flatMap bytes ++ rest) ↔ WellFormed rest := by
  induction cs with
  | nil => rfl
  | cons c cs ih =>
    rw [List.flatMap_cons, List.append_assoc, wellFormed_cons (hcs c List.mem_cons_self),
      ih hcs.tail]

theorem WellFormed.head {bs : List Nat} (h : WellFormed bs) (hne : bs ≠ []) :
    ∃ c, Scalar c ∧ bytes c <+: bs := by
  obtain ⟨cs, hcs, rfl⟩ := h
  cases cs with
  | nil => exact absurd rfl hne
  | cons c cs => exact ⟨c, hcs c List.mem_cons_self, List.prefix_append _ _⟩

theorem prefix_snoc {sub : List Nat} (b : Nat) (rest : List Nat) :
    sub ++ [b] <+: sub ++ b :: rest := ⟨rest, by simp⟩

/-- Where a byte rules every encoding out, none is there. -/
theorem Unfinished.no_encoding {sub : List Nat} (h : Unfinished sub) {b : Nat}
    (hb : ¬ Begins (sub ++ [b])) (rest : List Nat) {c : Nat} (hc : Scalar c) :
    ¬ bytes c <+: sub ++ b :: rest := by
  intro hp
  rcases List.prefix_or_prefix_of_prefix hp (prefix_snoc b rest) with hle | hle
  · rcases List.prefix_concat_iff.mp hle with heq | hle
    · exact hb ⟨c, hc, heq ▸ List.prefix_refl _⟩
    · exact h.incomplete hc hle
  · exact hb ⟨c, hc, hle⟩

theorem not_begins_longer {sub : List Nat} {b : Nat} (hb : ¬ Begins (sub ++ [b]))
    {longer rest : List Nat} (hl : longer <+: sub ++ b :: rest)
    (hlt : sub.length < longer.length) : ¬ Begins longer := by
  intro hbegins
  refine hb (hbegins.shorter (List.prefix_of_prefix_length_le (prefix_snoc b rest) hl ?_))
  rw [List.length_append, List.length_singleton]
  omega

theorem Unfinished.not_wellFormed {sub : List Nat} (h : Unfinished sub) {b : Nat}
    (hb : ¬ Begins (sub ++ [b])) (rest : List Nat) : ¬ WellFormed (sub ++ b :: rest) := by
  intro hwf
  obtain ⟨c, hc, hp⟩ := hwf.head (by simp)
  exact h.no_encoding hb rest hc hp

theorem Unfinished.not_wellFormed_end {sub : List Nat} (h : Unfinished sub) (hne : sub ≠ []) :
    ¬ WellFormed sub := by
  intro hwf
  obtain ⟨c, hc, hp⟩ := hwf.head hne
  exact h.incomplete hc hp

/-! ## what a decoder gives -/

/-- `sub` is replaced as a whole at the head of `bs`: no encoding is there, and `sub` is the longest
beginning of one, or a byte that begins none. -/
structure CutShort (sub bs : List Nat) : Prop where
  here : sub <+: bs
  nonempty : sub ≠ []
  part : Begins sub ∨ sub.length = 1
  longest : ∀ longer, longer <+: bs → sub.length < longer.length → ¬ Begins longer
  incomplete : ∀ c, Scalar c → ¬ bytes c <+: bs

inductive DecodesTo : List Nat → List Nat → Prop where
  | nil : DecodesTo [] []
  | scalar {c rest out} (hc : Scalar c) (h : DecodesTo rest out) :
      DecodesTo (bytes c ++ rest) (c :: out)
  | malformed {sub rest out} (hs : CutShort sub (sub ++ rest)) (h : DecodesTo rest out) :
      DecodesTo (sub ++ rest) (replacement :: out)

theorem CutShort.unique {sub sub' bs : List Nat} (h : CutShort sub bs) (h' : CutShort sub' bs) :
    sub = sub' := by
  have hle : ∀ {s s' : List Nat}, CutShort s bs → CutShort s' bs → s'.length ≤ s.length := by
    intro s s' hs hs'
    by_contra hlt
    rw [Nat.not_le] at hlt
    have hpos := List.length_pos_of_ne_nil hs.nonempty
    rcases hs'.part with hpart | hpart
    · exact hs.longest s' hs'.here hlt hpart
    · omega
  exact (List.prefix_of_prefix_length_le h.here h'.here (hle h' h)).eq_of_length
    (Nat.le_antisymm (hle h' h) (hle h h'))

theorem DecodesTo.unique {bs out out' : List Nat} (h : DecodesTo bs out) (h' : DecodesTo bs out') :
    out = out' := by
  induction h generalizing out' with
  | nil =>
    generalize hbs : ([] : List Nat) = bs at h'
    cases h' with
    | nil => rfl
    | scalar => exact absurd (List.append_eq_nil_iff.mp hbs.symm).1 (bytes_ne_nil _)
    | malformed hs => exact absurd (List.append_eq_nil_iff.mp hbs.symm).1 hs.nonempty
  | @scalar c rest out hc h ih =>
    generalize hbs : bytes c ++ rest = bs at h'
    cases h' with
    | nil => exact absurd (List.append_eq_nil_iff.mp hbs).1 (bytes_ne_nil _)
    | @scalar c' rest' _ hc' h' =>
      have hsame := eq_of_bytes_append hc hc' hbs
      subst hsame
      rw [ih (List.append_cancel_left hbs ▸ h')]
    | malformed hs => exact absurd (hbs ▸ List.prefix_append _ _) (hs.incomplete c hc)
  | @malformed sub rest out hs h ih =>
    generalize hbs : sub ++ rest = bs at h' hs
    cases h' with
    | nil => exact absurd (List.append_eq_nil_iff.mp hbs).1 hs.nonempty
    | @scalar c' => exact absurd (List.prefix_append _ _) (hs.incomplete c' ‹_›)
    | @malformed sub' rest' _ hs' h' =>
      have hsame := hs.unique hs'
      subst hsame
      rw [ih (List.append_cancel_left hbs ▸ h')]

theorem decodesTo_bytes {cs : List Nat} (h : Scalars cs) : DecodesTo (cs.flatMap bytes) cs := by
  induction cs with
  | nil => exact .nil
  | cons c cs ih =>
    rw [List.flatMap_cons]
    exact .scalar (h c List.mem_cons_self) (ih h.tail)

/-! ## reading byte by byte -/

/-- What was read gave `out`, and whatever follows is decoded after `sub`. -/
def Leads (bs out sub : List Nat) : Prop :=
  ∀ rest tail, DecodesTo (sub ++ rest) tail → DecodesTo (bs ++ rest) (out ++ tail)

namespace Leads
variable {bs out sub : List Nat} {b : Nat}

theorem refl (bs : List Nat) : Leads bs [] bs := fun _ _ h => h

theorem snoc (h : Leads bs out sub) (b : Nat) : Leads (bs ++ [b]) out (sub ++ [b]) := by
  intro rest tail hd
  rw [List.append_assoc] at hd ⊢
  exact h _ _ hd

theorem scalar (h : Leads bs out sub) {c : Nat} (hs : Sequence sub c) :
    Leads bs (out ++ [c]) [] := by
  intro rest tail hd
  obtain ⟨hc, rfl⟩ := bytes_of_sequence hs
  rw [List.append_assoc]
  exact h _ _ (.scalar hc hd)

/-- a beginning that the next byte does not go on with -/
theorem cut (h : Leads bs out (sub ++ [b])) (hp : Unfinished sub) (hne : sub ≠ [])
    (hb : ¬ Begins (sub ++ [b])) : Leads bs (out ++ [replacement]) [b] := by
  intro rest tail hd
  have hcut : CutShort sub (sub ++ b :: rest) :=
    ⟨List.prefix_append _ _, hne, .inl hp.begins, fun _ hl => not_begins_longer hb hl,
      fun _ hc => hp.no_encoding hb rest hc⟩
  have hdecodes := DecodesTo.malformed hcut hd
  rw [List.append_assoc]
  refine h _ _ ?_
  rwa [List.append_assoc]

/-- a byte that begins nothing -/
theorem bad (h : Leads bs out [b]) (hb : ¬ Begins [b]) : Leads bs (out ++ [replacement]) [] := by
  intro rest tail hd
  have hcut : CutShort [b] ([b] ++ rest) := by
    refine ⟨List.prefix_append _ _, by simp, .inr rfl, fun longer hl hlt => ?_,
      fun _ hc => Unfinished.nil.no_encoding hb rest hc⟩
    have hb' : ¬ Begins ([] ++ [b]) := hb
    exact not_begins_longer hb' hl (Nat.lt_of_succ_lt hlt)
  rw [List.append_assoc]
  exact h _ _ (.malformed hcut hd)

theorem decodes (h : Leads bs out []) : DecodesTo bs out := by
  have hd := h [] [] .nil
  rwa [List.append_nil, List.append_nil] at hd

/-- the end of the bytes in the middle of an encoding -/
theorem decodes_cut (h : Leads bs out sub) (hp : Unfinished sub) (hne : sub ≠ []) :
    DecodesTo bs (out ++ [replacement]) := by
  have hcut : CutShort sub (sub ++ []) := by
    rw [List.append_nil]
    refine ⟨List.prefix_refl _, hne, .inl hp.begins, fun longer hl hlt => ?_,
      fun _ hc => hp.incomplete hc⟩
    exact absurd hl.length_le (Nat.not_le.mpr hlt)
  have hd := h [] _ (.malformed hcut .nil)
  rwa [List.append_nil] at hd

end Leads

end Utf8
end Lib
