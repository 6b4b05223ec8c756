import NovaRuntime.Encoding.TextDecoder
import NovaRuntime.Lib.Utf8

/-!
# Decoding in chunks

A `TextDecoder` between two bytes is known from the bytes of the sequence that is open.

* `hold`       that state;
* `Reading`    a decoder after the bytes `bs`, which pushed `out` and left `sub` open;
* `decodeByte_reading`, `decodeBytes_reading`   a byte and a chunk keep it, unless the bytes are
               malformed and the decoder is fatal;
* `decodeAll_eq`   any chunks give the text of all their bytes.
-/

namespace NovaRuntime
open Lib

namespace TextDecoder

/-! ## the state between bytes -/

/-- how many bytes follow a first one, and the bits that it gives -/
def trailing (a : Nat) : Nat := if a ≤ 0xdf then 1 else if a ≤ 0xef then 2 else 3
def leadBits (a : Nat) : Nat := if a ≤ 0xdf then a % 32 else if a ≤ 0xef then a % 16 else a % 8

/-- the decoder with these bytes of a sequence open -/
def hold (d : TextDecoder) : List Nat → TextDecoder
  | [] => d.reset
  | [a] =>
    { d with
      needed := trailing a, seen := 0, codePoint := leadBits a
      lower := if a = 0xe0 then 0xa0 else if a = 0xf0 then 0x90 else 0x80
      upper := if a = 0xed then 0x9f else if a = 0xf4 then 0x8f else 0xbf }
  | [a, b] =>
    { d with
      needed := trailing a, seen := 1, codePoint := leadBits a * 64 + b % 64
      lower := 0x80, upper := 0xbf }
  | a :: b :: c :: _ =>
    { d with
      needed := trailing a, seen := 2, codePoint := (leadBits a * 64 + b % 64) * 64 + c % 64
      lower := 0x80, upper := 0xbf }

section
variable (d : TextDecoder) (sub sub' : List Nat)

@[simp] theorem hold_fatal : (d.hold sub).fatal = d.fatal := by
  unfold hold
  split <;> rfl

@[simp] theorem hold_ignoreBOM : (d.hold sub).ignoreBOM = d.ignoreBOM := by
  unfold hold
  split <;> rfl

@[simp] theorem hold_bomSeen : (d.hold sub).bomSeen = d.bomSeen := by
  unfold hold
  split <;> rfl

@[simp] theorem hold_hold : (d.hold sub).hold sub' = d.hold sub' := by
  unfold hold
  split <;> split <;> rfl

theorem hold_with_bomSeen (seen : Bool) :
    { d.hold sub with bomSeen := seen } = { d with bomSeen := seen }.hold sub := by
  unfold hold
  split <;> rfl

end

theorem and_mask (n : Nat) : n &&& 0x1f = n % 32 ∧ n &&& 0x0f = n % 16 ∧ n &&& 0x07 = n % 8 ∧
    n &&& 0x3f = n % 64 :=
  ⟨Nat.and_two_pow_sub_one_eq_mod n 5, Nat.and_two_pow_sub_one_eq_mod n 4,
    Nat.and_two_pow_sub_one_eq_mod n 3, Nat.and_two_pow_sub_one_eq_mod n 6⟩

theorem shift_or (n b : Nat) : n <<< 6 ||| b &&& 0x3f = n * 64 + b % 64 := by
  rw [(and_mask b).2.2.2, ← Nat.shiftLeft_add_eq_or_of_lt (Nat.mod_lt b (by decide) : b % 64 < 2 ^ 6),
    Nat.shiftLeft_eq]

open Utf8

variable {d : TextDecoder}

theorem lead_reset (b : Nat) :
    (Sequence [b] b ∧ d.reset.lead b = .ok ([b], d.hold [])) ∨
      (Unfinished [b] ∧ d.reset.lead b = .ok ([], d.hold [b])) ∨
      (¬ Begins [b] ∧ d.reset.lead b = d.reset.malformed) := by
  have hmask := and_mask b
  unfold lead
  split
  · next h => exact .inl ⟨.one h, rfl⟩
  · next h1 =>
    split
    · next h =>
      have hne : b ≠ 0xe0 ∧ b ≠ 0xed ∧ b ≠ 0xf0 ∧ b ≠ 0xf4 := by omega
      refine .inr (.inl ⟨.lead (by omega), ?_⟩)
      simp [hold, start, reset, trailing, leadBits, h.2, hne, hmask]
    · next h2 =>
      split
      · next h =>
        have hne : b ≠ 0xf0 ∧ b ≠ 0xf4 ∧ ¬ b ≤ 0xdf := by omega
        refine .inr (.inl ⟨.lead (by omega), ?_⟩)
        simp [hold, start, reset, trailing, leadBits, h.2, hne, hmask]
      · next h3 =>
        split
        · next h =>
          have hne : b ≠ 0xe0 ∧ b ≠ 0xed ∧ ¬ b ≤ 0xdf ∧ ¬ b ≤ 0xef := by omega
          refine .inr (.inl ⟨.lead (by omega), ?_⟩)
          simp [hold, start, reset, trailing, leadBits, hne, hmask]
        · next h4 =>
          refine .inr (.inr ⟨Unfinished.nil.not_begins ?_, rfl⟩)
          unfold Continues
          omega

/-- the range that the decoder holds is that of the bytes that go on -/
theorem hold_range {sub : List Nat} (h : Unfinished sub) (hne : sub ≠ []) (b : Nat) :
    (d.hold sub).lower ≤ b ∧ b ≤ (d.hold sub).upper ↔ Continues sub b := by
  cases h with
  | nil => exact absurd rfl hne
  | lead ha =>
    simp only [hold, Continues, Second, Tail]
    repeat' split
    all_goals omega
  | second | third => rfl

theorem trailing_cases (a : Nat) :
    (a ≤ 0xdf ∧ trailing a = 1 ∧ leadBits a = a % 32) ∨
      (0xe0 ≤ a ∧ a ≤ 0xef ∧ trailing a = 2 ∧ leadBits a = a % 16) ∨
      (0xf0 ≤ a ∧ trailing a = 3 ∧ leadBits a = a % 8) := by
  unfold trailing leadBits
  repeat' split
  all_goals omega

theorem hold_needed {sub : List Nat} (h : Unfinished sub) : (d.hold sub).needed = 0 ↔ sub = [] := by
  have htrailing : ∀ a, trailing a ≠ 0 := by
    intro a
    rcases trailing_cases a with ha | ha | ha <;> omega
  cases h with
  | nil => exact iff_of_true rfl rfl
  | lead | second | third => exact iff_of_false (htrailing _) (by simp)

theorem follow_hold {sub : List Nat} (h : Unfinished sub) (hne : sub ≠ []) {b : Nat}
    (hb : Continues sub b) :
    (∃ c, Sequence (sub ++ [b]) c ∧ (d.hold sub).follow b = ([c], d.hold [])) ∨
      (Unfinished (sub ++ [b]) ∧ (d.hold sub).follow b = ([], d.hold (sub ++ [b]))) := by
  unfold follow
  rw [shift_or]
  cases h with
  | nil => exact absurd rfl hne
  | @lead a ha =>
    rcases trailing_cases a with ⟨h1, ht, hl⟩ | ⟨h1, h2, ht, hl⟩ | ⟨h1, ht, hl⟩
    · refine .inl ⟨_, .two ⟨ha.1, h1⟩ hb, ?_⟩
      simp [hold, reset, ht, hl]
    · refine .inr ⟨.second ⟨h1, by omega⟩ hb, ?_⟩
      simp [hold, ht]
    · refine .inr ⟨.second ⟨by omega, ha.2⟩ hb, ?_⟩
      simp [hold, ht]
  | @second a b' ha hb' =>
    rcases trailing_cases a with ⟨h1, -⟩ | ⟨h1, h2, ht, hl⟩ | ⟨h1, ht, hl⟩
    · omega
    · refine .inl ⟨_, .three ⟨h1, h2⟩ hb' hb, ?_⟩
      simp [hold, reset, ht, hl]
    · refine .inr ⟨.third ⟨h1, ha.2⟩ hb' hb, ?_⟩
      simp [hold, ht]
  | @third a b' c ha hb' hc =>
    rcases trailing_cases a with ⟨h1, -⟩ | ⟨-, h2, -⟩ | ⟨h1, ht, hl⟩
    · omega
    · omega
    · refine .inl ⟨_, .four ha hb' hc hb, ?_⟩
      simp [hold, reset, ht, hl]

/-! ## what was read -/

/-- A decoder that has read `bs`: it pushed `out`, and `sub` is open.  A fatal one has met nothing
but encodings. -/
structure Reading (d : TextDecoder) (bs out sub : List Nat) : Prop where
  pending : Unfinished sub
  state : d = d.hold sub
  leads : Leads bs out sub
  exact : d.fatal = true → Scalars out ∧ bs = out.flatMap bytes ++ sub

/-- what a read may do: push points, or throw on malformed bytes -/
def Reads (d : TextDecoder) (bs out : List Nat) :
    Except TextDecoder (List Nat × TextDecoder) → Prop
  | .ok (ps, d') => (d'.fatal = d.fatal ∧ d'.ignoreBOM = d.ignoreBOM ∧ d'.bomSeen = d.bomSeen) ∧
      ∃ sub, Reading d' bs (out ++ ps) sub
  | .error _ => d.fatal = true ∧ ∀ rest, ¬ WellFormed (bs ++ rest)

theorem utf8_reading (fatal ignoreBOM : Bool) : Reading (.utf8 fatal ignoreBOM) [] [] [] :=
  ⟨.nil, rfl, Leads.refl [], fun _ => ⟨by simp [Scalars], rfl⟩⟩

variable {bs out sub : List Nat}

theorem Reading.scalar (h : Reading d bs out sub) {b c : Nat} (hs : Sequence (sub ++ [b]) c) :
    Reading (d.hold []) (bs ++ [b]) (out ++ [c]) [] := by
  obtain ⟨hc, hbytes⟩ := bytes_of_sequence hs
  refine ⟨.nil, rfl, (h.leads.snoc b).scalar hs, fun hf => ?_⟩
  obtain ⟨hout, hbs⟩ := h.exact hf
  refine ⟨hout.append (by simpa [Scalars] using hc), ?_⟩
  rw [hbs, List.flatMap_append, List.flatMap_singleton, hbytes, List.append_nil, List.append_assoc]

theorem Reading.snoc (h : Reading d bs out sub) {b : Nat} (hp : Unfinished (sub ++ [b])) :
    Reading (d.hold (sub ++ [b])) (bs ++ [b]) out (sub ++ [b]) := by
  refine ⟨hp, (hold_hold d _ _).symm, h.leads.snoc b, fun hf => ?_⟩
  rw [hold_fatal] at hf
  obtain ⟨hout, hbs⟩ := h.exact hf
  refine ⟨hout, ?_⟩
  rw [hbs, List.append_assoc]

/-- the bytes that a fatal decoder throws on -/
theorem Reading.not_wellFormed (h : Reading d bs out sub) (hf : d.fatal = true) {b : Nat}
    (hb : ¬ Begins (sub ++ [b])) (rest : List Nat) : ¬ WellFormed (bs ++ [b] ++ rest) := by
  obtain ⟨hout, hbs⟩ := h.exact hf
  rw [hbs, List.append_assoc, List.append_assoc, wellFormed_append hout]
  exact h.pending.not_wellFormed hb rest

theorem Reads.prepend {ps : List Nat} {r : Except TextDecoder (List Nat × TextDecoder)}
    (h : Reads d bs (out ++ ps) r) :
    Reads d bs out (r.map fun (more, d) => (ps ++ more, d)) := by
  cases r with
  | error d' => exact h
  | ok r =>
    obtain ⟨hsame, sub, hr⟩ := h
    refine ⟨hsame, sub, ?_⟩
    rwa [← List.append_assoc]

theorem Reads.bind {r : Except TextDecoder (List Nat × TextDecoder)} (h : Reads d bs out r)
    {more : List Nat} {f : TextDecoder → Except TextDecoder (List Nat × TextDecoder)}
    (hf : ∀ ps d' sub, Reading d' bs (out ++ ps) sub → Reads d' (bs ++ more) (out ++ ps) (f d')) :
    Reads d (bs ++ more) out
      (r.bind fun (ps, d) => (f d).map fun (more, d) => (ps ++ more, d)) := by
  cases r with
  | error d' =>
    refine ⟨h.1, fun rest => ?_⟩
    rw [List.append_assoc]
    exact h.2 _
  | ok r =>
    obtain ⟨ps, d'⟩ := r
    obtain ⟨hsame, sub, hr⟩ := h
    have hmore := (hf ps d' sub hr).prepend
    rw [Except.bind]
    dsimp only
    cases hfd : f d' with
    | error d'' =>
      rw [hfd] at hmore
      exact ⟨hsame.1 ▸ hmore.1, hmore.2⟩
    | ok r' =>
      rw [hfd] at hmore
      obtain ⟨hsame', hreading⟩ := hmore
      exact ⟨⟨hsame'.1.trans hsame.1, hsame'.2.1.trans hsame.2.1, hsame'.2.2.trans hsame.2.2⟩,
        hreading⟩

/-- a byte outside of any sequence, after a decoder that does not throw or has met nothing but
encodings -/
theorem lead_reads {b : Nat} (hl : Leads bs out [b])
    (he : d.fatal = true → Scalars out ∧ bs = out.flatMap bytes ++ [b]) :
    Reads d bs out (d.reset.lead b) := by
  rcases lead_reset (d := d) b with ⟨hs, heq⟩ | ⟨hp, heq⟩ | ⟨hb, heq⟩
  · rw [heq]
    refine ⟨⟨rfl, rfl, rfl⟩, [], .nil, rfl, hl.scalar hs, fun hf => ?_⟩
    obtain ⟨hout, hbs⟩ := he hf
    obtain ⟨hc, hbytes⟩ := bytes_of_sequence hs
    refine ⟨hout.append (by simpa [Scalars] using hc), ?_⟩
    rw [hbs, List.flatMap_append, List.flatMap_singleton, hbytes, List.append_nil]
  · rw [heq]
    refine ⟨⟨rfl, rfl, rfl⟩, [b], hp, rfl, ?_, fun hf => ?_⟩
    · rwa [List.append_nil]
    · rw [List.append_nil]
      exact he hf
  · rw [heq, malformed]
    split
    · next hf =>
      refine ⟨hf, fun rest => ?_⟩
      obtain ⟨hout, hbs⟩ := he hf
      rw [hbs, List.append_assoc, wellFormed_append hout]
      exact Unfinished.nil.not_wellFormed hb rest
    · next hf => exact ⟨⟨rfl, rfl, rfl⟩, [], .nil, rfl, hl.bad hb, fun hf' => absurd hf' hf⟩

theorem decodeByte_reads (h : Reading d bs out sub) (b : Nat) :
    Reads d (bs ++ [b]) out (d.decodeByte b) := by
  have hneeded : d.needed = 0 ↔ sub = [] := by
    rw [h.state]
    exact hold_needed h.pending
  have hl := h.leads.snoc b
  by_cases hne : sub = []
  · subst hne
    have hreset : d.reset = d := h.state.symm
    rw [decodeByte, if_pos (hneeded.mpr rfl), ← hreset]
    refine lead_reads hl fun hf => ?_
    obtain ⟨hout, hbs⟩ := h.exact hf
    refine ⟨hout, ?_⟩
    rw [hbs, List.append_nil]
  · have hrange : d.lower ≤ b ∧ b ≤ d.upper ↔ Continues sub b := by
      rw [h.state]
      exact hold_range h.pending hne b
    rw [decodeByte, if_neg (mt hneeded.mp hne)]
    split
    · next hout =>
      have hbegins : ¬ Begins (sub ++ [b]) := h.pending.not_begins fun hb => by
        have hin := hrange.mpr hb
        omega
      rw [malformed]
      split
      · next hf => exact ⟨hf, h.not_wellFormed hf hbegins⟩
      · next hf =>
        -- the byte is taken once more, after the replacement
        exact (lead_reads (hl.cut h.pending hne hbegins) fun hf' => absurd hf' hf).prepend
    · next hin =>
      have hb := hrange.mp (by omega)
      rw [h.state]
      rcases follow_hold (d := d) h.pending hne hb with ⟨c, hs, heq⟩ | ⟨hp, heq⟩
      · rw [heq]
        exact ⟨by simp, [], h.scalar hs⟩
      · rw [heq]
        refine ⟨by simp, sub ++ [b], ?_⟩
        rw [List.append_nil]
        exact h.snoc hp

theorem decodeBytes_reads (h : Reading d bs out sub) (chunk : List Nat) :
    Reads d (bs ++ chunk) out (d.decodeBytes chunk) := by
  induction chunk generalizing d bs out sub with
  | nil =>
    refine ⟨⟨rfl, rfl, rfl⟩, sub, ?_⟩
    rwa [List.append_nil, List.append_nil]
  | cons b rest ih =>
    rw [decodeBytes, List.append_cons]
    exact (decodeByte_reads h b).bind fun ps d' sub' hr => ih hr

/-! ## the end of the bytes -/

/-- what the last call may do -/
def Finishes (d : TextDecoder) (bs out : List Nat) :
    Except TextDecoder (List Nat × TextDecoder) → Prop
  | .ok (ps, d') => (d'.fatal = d.fatal ∧ d'.ignoreBOM = d.ignoreBOM ∧ d'.bomSeen = d.bomSeen) ∧
      DecodesTo bs (out ++ ps) ∧ (d.fatal = true → WellFormed bs)
  | .error _ => d.fatal = true ∧ ¬ WellFormed bs

theorem flush_finishes (h : Reading d bs out sub) : Finishes d bs out d.flush := by
  have hneeded : d.needed = 0 ↔ sub = [] := by
    rw [h.state]
    exact hold_needed h.pending
  rw [flush]
  split
  · next hopen =>
    have hne := mt hneeded.mpr hopen
    rw [malformed]
    split
    · next hf =>
      refine ⟨hf, ?_⟩
      obtain ⟨hout, hbs⟩ := h.exact hf
      rw [hbs, wellFormed_append hout]
      exact h.pending.not_wellFormed_end hne
    · next hf =>
      exact ⟨⟨rfl, rfl, rfl⟩, h.leads.decodes_cut h.pending hne, fun hf' => absurd hf' hf⟩
  · next hclosed =>
    have hnil := hneeded.mp (not_not.mp hclosed)
    subst hnil
    refine ⟨⟨rfl, rfl, rfl⟩, ?_, fun hf => ?_⟩
    · rw [List.append_nil]
      exact h.leads.decodes
    · obtain ⟨hout, hbs⟩ := h.exact hf
      exact ⟨out, hout, by rw [hbs, List.append_nil]⟩

theorem points_stream (h : Reading d bs out sub) (chunk : List Nat) :
    Reads d (bs ++ chunk) out (d.points chunk true) := by
  have hread := decodeBytes_reads h chunk
  rw [points]
  cases heq : d.decodeBytes chunk with
  | error d' =>
    rw [heq] at hread
    exact hread
  | ok r =>
    rw [heq] at hread
    exact hread

theorem points_last (h : Reading d bs out sub) (chunk : List Nat) :
    Finishes d (bs ++ chunk) out (d.points chunk false) := by
  have hread := decodeBytes_reads h chunk
  rw [points]
  cases heq : d.decodeBytes chunk with
  | error d' =>
    rw [heq] at hread
    refine ⟨hread.1, ?_⟩
    have hnot := hread.2 []
    rwa [List.append_nil] at hnot
  | ok r =>
    obtain ⟨ps, d'⟩ := r
    rw [heq] at hread
    obtain ⟨hsame, sub', hr⟩ := hread
    have hend := flush_finishes hr
    rw [Except.bind]
    dsimp only
    cases hfl : d'.flush with
    | error d'' =>
      rw [hfl] at hend
      exact ⟨hsame.1 ▸ hend.1, hend.2⟩
    | ok r' =>
      rw [hfl] at hend
      obtain ⟨hsame', hd, hwf⟩ := hend
      refine ⟨⟨hsame'.1.trans hsame.1, hsame'.2.1.trans hsame.2.1, hsame'.2.2.trans hsame.2.2⟩,
        ?_, hsame.1 ▸ hwf⟩
      rwa [← List.append_assoc]

/-! ## the byte order mark -/

def withoutBom (ignoreBOM : Bool) (out : List Nat) : List Nat :=
  if ignoreBOM = false ∧ out.head? = some 0xfeff then out.tail else out

/-- a decoder that looks for the mark has seen a point as soon as there was one -/
def BomKnown (d : TextDecoder) (out : List Nat) : Prop :=
  d.ignoreBOM = false → (d.bomSeen = true ↔ out ≠ [])

theorem dropBom_eq (h : BomKnown d out) (ps : List Nat) :
    withoutBom d.ignoreBOM (out ++ ps) = withoutBom d.ignoreBOM out ++ (d.dropBom ps).1 ∧
      BomKnown (d.dropBom ps).2 (out ++ ps) := by
  unfold dropBom withoutBom
  cases hi : d.ignoreBOM with
  | true => simp [BomKnown, hi]
  | false =>
    have hknown := h hi
    cases out with
    | nil =>
      have hseen : d.bomSeen = false := by simpa using hknown
      cases ps with
      | nil => simp [BomKnown, hseen]
      | cons p ps => simp [BomKnown, hseen]
    | cons p out =>
      have hseen : d.bomSeen = true := by simpa using hknown
      simp only [hseen, BomKnown]
      split <;> simp_all

theorem dropBom_options (ps : List Nat) :
    (d.dropBom ps).2.fatal = d.fatal ∧ (d.dropBom ps).2.ignoreBOM = d.ignoreBOM := by
  unfold dropBom
  split <;> exact ⟨rfl, rfl⟩

theorem dropBom_reading (h : Reading d bs out sub) (ps : List Nat) :
    Reading (d.dropBom ps).2 bs out sub := by
  refine ⟨h.pending, ?_, h.leads, fun hf => h.exact ((dropBom_options ps).1.symm.trans hf)⟩
  unfold dropBom
  split
  · exact (congrArg (fun d : TextDecoder => { d with bomSeen := true }) h.state).trans
      (hold_with_bomSeen d sub true)
  · exact h.state

/-! ## calls -/

/-- A call with a chunk to come throws on malformed bytes, or keeps the invariant and returns the
text of the points it pushed. -/
theorem decode_stream (h : Reading d bs out sub) (hb : BomKnown d out) (chunk : Chunk) :
    (∃ e d', d.decode chunk.input true = (.error e, d') ∧ d.fatal = true ∧
        ∀ rest, ¬ WellFormed (bs ++ chunk.bytes ++ rest)) ∨
      ∃ ps text d' sub', d.decode chunk.input true = (.ok text, d') ∧
        (d'.fatal = d.fatal ∧ d'.ignoreBOM = d.ignoreBOM) ∧
        Reading d' (bs ++ chunk.bytes) (out ++ ps) sub' ∧ BomKnown d' (out ++ ps) ∧
        encode (withoutBom d.ignoreBOM (out ++ ps)) = encode (withoutBom d.ignoreBOM out) ++ text := by
  have hread := points_stream h chunk.bytes
  rw [decode, chunk.isBytes]
  dsimp only
  cases heq : d.points chunk.bytes true with
  | error d' =>
    rw [heq] at hread
    exact .inl ⟨_, _, rfl, hread⟩
  | ok r =>
    obtain ⟨ps, d'⟩ := r
    rw [heq] at hread
    obtain ⟨⟨hf, hi, hs⟩, sub', hr⟩ := hread
    have hb' : BomKnown d' out := by
      unfold BomKnown at hb ⊢
      rwa [hi, hs]
    obtain ⟨htext, hknown⟩ := dropBom_eq hb' ps
    obtain ⟨hf', hi'⟩ := dropBom_options (d := d') ps
    refine .inr ⟨ps, _, _, sub', rfl, ⟨hf'.trans hf, hi'.trans hi⟩, dropBom_reading hr ps, hknown, ?_⟩
    rw [textOf_eq, ← hi, htext]
    exact List.flatMap_append

theorem decode_last (h : Reading d bs out sub) (hb : BomKnown d out) (chunk : Chunk) :
    (∃ e, (d.decode chunk.input false).1 = .error e ∧ d.fatal = true ∧
        ¬ WellFormed (bs ++ chunk.bytes)) ∨
      ∃ ps text, (d.decode chunk.input false).1 = .ok text ∧
        DecodesTo (bs ++ chunk.bytes) (out ++ ps) ∧
        (d.fatal = true → WellFormed (bs ++ chunk.bytes)) ∧
        encode (withoutBom d.ignoreBOM (out ++ ps)) = encode (withoutBom d.ignoreBOM out) ++ text := by
  have hread := points_last h chunk.bytes
  rw [decode, chunk.isBytes]
  dsimp only
  cases heq : d.points chunk.bytes false with
  | error d' =>
    rw [heq] at hread
    exact .inl ⟨_, rfl, hread⟩
  | ok r =>
    obtain ⟨ps, d'⟩ := r
    rw [heq] at hread
    obtain ⟨⟨-, hi, hs⟩, hd, hwf⟩ := hread
    have hb' : BomKnown d' out := by
      unfold BomKnown at hb ⊢
      rwa [hi, hs]
    obtain ⟨htext, -⟩ := dropBom_eq hb' ps
    refine .inr ⟨ps, _, rfl, hd, hwf, ?_⟩
    rw [textOf_eq, ← hi, htext]
    exact List.flatMap_append

/-- what the calls return when none throws, and that a call throws -/
def Returned (results : List (Except Text Text)) (text : Text) : Prop :=
  ∃ texts : List Text, results = texts.map .ok ∧ text = texts.flatten

def Threw (results : List (Except Text Text)) : Prop := ∃ e, .error e ∈ results

def allBytes (chunks : List Chunk) (last : Chunk) : List Nat :=
  chunks.flatMap Chunk.bytes ++ last.bytes

theorem Returned.not_threw {results : List (Except Text Text)} {text : Text}
    (h : Returned results text) : ¬ Threw results := by
  obtain ⟨texts, rfl, -⟩ := h
  rintro ⟨e, he⟩
  obtain ⟨t, -, heq⟩ := List.mem_map.mp he
  cases heq

theorem Returned.unique {results : List (Except Text Text)} {text text' : Text}
    (h : Returned results text) (h' : Returned results text') : text = text' := by
  obtain ⟨texts, rfl, rfl⟩ := h
  obtain ⟨texts', heq, rfl⟩ := h'
  have hsame : texts = texts' := List.map_injective_iff.mpr (fun _ _ => Except.ok.inj) heq
  rw [hsame]

theorem decodeAll_reading (h : Reading d bs out sub) (hb : BomKnown d out) (chunks : List Chunk)
    (last : Chunk) :
    (Threw (d.decodeAll chunks last) ∧ d.fatal = true ∧
        ¬ WellFormed (bs ++ allBytes chunks last)) ∨
      ∃ ps text, Returned (d.decodeAll chunks last) text ∧
        DecodesTo (bs ++ allBytes chunks last) (out ++ ps) ∧
        (d.fatal = true → WellFormed (bs ++ allBytes chunks last)) ∧
        encode (withoutBom d.ignoreBOM (out ++ ps)) = encode (withoutBom d.ignoreBOM out) ++ text := by
  induction chunks generalizing d bs out sub with
  | nil =>
    rcases decode_last h hb last with ⟨e, heq, hf, hwf⟩ | ⟨ps, text, heq, hd, hwf, htext⟩
    · exact .inl ⟨⟨e, by rw [decodeAll, heq]; exact List.mem_cons_self⟩, hf, hwf⟩
    · refine .inr ⟨ps, text, ⟨[text], ?_, by simp⟩, hd, hwf, htext⟩
      rw [decodeAll, heq]
      rfl
  | cons chunk chunks ih =>
    have hbytes : bs ++ allBytes (chunk :: chunks) last =
        bs ++ chunk.bytes ++ allBytes chunks last := by
      simp [allBytes]
    rw [decodeAll, hbytes]
    rcases decode_stream h hb chunk with ⟨e, d', heq, hf, hwf⟩ |
      ⟨ps, text, d', sub', heq, ⟨hf, hi⟩, hr, hknown, htext⟩
    · exact .inl ⟨⟨e, by rw [heq]; exact List.mem_cons_self⟩, hf, hwf _⟩
    · rw [heq]
      dsimp only
      rcases ih hr hknown with ⟨⟨e, he⟩, hfatal, hwf⟩ |
        ⟨more, rest, ⟨texts, hall, hrest⟩, hd, hwf, hmore⟩
      · exact .inl ⟨⟨e, List.mem_cons_of_mem _ he⟩, hf ▸ hfatal, hwf⟩
      · rw [List.append_assoc out] at hd hmore
        refine .inr ⟨ps ++ more, text ++ rest, ⟨text :: texts, ?_, ?_⟩, hd, hf ▸ hwf, ?_⟩
        · rw [hall, List.map_cons]
        · rw [hrest, List.flatten_cons]
        · rw [hi] at hmore
          rw [hmore, htext, List.append_assoc]

variable (fatal ignoreBOM : Bool) (chunks : List Chunk) (last : Chunk)

/-- the calls on a fresh decoder -/
theorem decodeAll_utf8 :
    (Threw ((utf8 fatal ignoreBOM).decodeAll chunks last) ∧ fatal = true ∧
        ¬ WellFormed (allBytes chunks last)) ∨
      ∃ out, Returned ((utf8 fatal ignoreBOM).decodeAll chunks last)
          (encode (withoutBom ignoreBOM out)) ∧
        DecodesTo (allBytes chunks last) out ∧ (fatal = true → WellFormed (allBytes chunks last)) := by
  have hknown : BomKnown (utf8 fatal ignoreBOM) [] := by simp [BomKnown, utf8]
  rcases decodeAll_reading (utf8_reading fatal ignoreBOM) hknown chunks last with
    h | ⟨out, text, hret, hd, hwf, htext⟩
  · exact .inl h
  · refine .inr ⟨out, ?_, hd, hwf⟩
    have hnil : encode (withoutBom (utf8 fatal ignoreBOM).ignoreBOM []) = [] := by
      simp [withoutBom, encode]
    rw [hnil, List.nil_append, List.nil_append] at htext
    exact htext ▸ hret

/-- The calls together return the text of all the bytes, without its byte order mark; those of a
fatal decoder throw exactly on malformed bytes. -/
theorem decodeAll_eq : ∃ out, DecodesTo (allBytes chunks last) out ∧
    (Threw ((utf8 fatal ignoreBOM).decodeAll chunks last) ↔
      fatal = true ∧ ¬ WellFormed (allBytes chunks last)) ∧
    (¬ Threw ((utf8 fatal ignoreBOM).decodeAll chunks last) →
      Returned ((utf8 fatal ignoreBOM).decodeAll chunks last)
        (encode (withoutBom ignoreBOM out))) := by
  rcases decodeAll_utf8 fatal ignoreBOM chunks last with ⟨hthrew, hbad⟩ | ⟨out, hret, hd, hwf⟩
  · -- a decoder that does not throw gives the text of the same bytes
    rcases decodeAll_utf8 false ignoreBOM chunks last with ⟨-, hfalse, -⟩ | ⟨out, -, hd, -⟩
    · cases hfalse
    · exact ⟨out, hd, iff_of_true hthrew hbad, fun hno => absurd hthrew hno⟩
  · exact ⟨out, hd, iff_of_false hret.not_threw fun hbad => hbad.2 (hwf hbad.1), fun _ => hret⟩

theorem returned_iff {text : Text} :
    Returned ((utf8 fatal ignoreBOM).decodeAll chunks last) text ↔
      ∃ out, DecodesTo (allBytes chunks last) out ∧
        (fatal = true → WellFormed (allBytes chunks last)) ∧
        text = encode (withoutBom ignoreBOM out) := by
  rcases decodeAll_utf8 fatal ignoreBOM chunks last with ⟨hthrew, hf, hbad⟩ | ⟨out, hret, hd, hwf⟩
  · refine iff_of_false (fun hret => hret.not_threw hthrew) ?_
    rintro ⟨-, -, hwf, -⟩
    exact hbad (hwf hf)
  · constructor
    · exact fun hret' => ⟨out, hd, hwf, hret'.unique hret⟩
    · rintro ⟨out', hd', -, rfl⟩
      rwa [hd'.unique hd]

/-- The cuts make no difference: the bytes in one chunk give the same. -/
theorem decodeAll_once {text : Text} :
    Returned ((utf8 fatal ignoreBOM).decodeAll chunks last) text ↔
      Returned ((utf8 fatal ignoreBOM).decodeAll [] (.ofBytes (allBytes chunks last))) text := by
  rw [returned_iff, returned_iff]
  rfl

end TextDecoder

end NovaRuntime
