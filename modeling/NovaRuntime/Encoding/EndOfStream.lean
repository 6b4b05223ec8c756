import NovaRuntime.Encoding.Streaming

/-!
# The end of a stream

A call of `decode` without `stream` is the last one of its stream.

* `BehavesLike`   two decoders return and throw the same in all later calls;
* `Between`       what a decoder is between two calls, in every history;
* `decode_end`    the last call leaves a fresh decoder, unless it throws; then `bomSeen` is left;
* `fresh_iff`     which decoders behave like a fresh one;
* `ended_iff`     exactly when the decoder behaves like a fresh one after it.
-/

namespace NovaRuntime
open Lib

structure DecodeCall where
  input : Input
  stream : Bool

namespace TextDecoder

/-- the decoder after these calls -/
def after (d : TextDecoder) : List DecodeCall → TextDecoder
  | [] => d
  | call :: calls => after (d.decode call.input call.stream).2 calls

def results (d : TextDecoder) : List DecodeCall → List (Except Text Text)
  | [] => []
  | call :: calls =>
    (d.decode call.input call.stream).1 :: results (d.decode call.input call.stream).2 calls

/-- all later calls return and throw the same -/
def BehavesLike (d d' : TextDecoder) : Prop := ∀ calls, d.results calls = d'.results calls

open Utf8

variable {d d' : TextDecoder} {sub : List Nat}

/-! ## where a call throws -/

/-- the options, and whether the byte order mark was looked for -/
def SameOptions (d d' : TextDecoder) : Prop :=
  d'.fatal = d.fatal ∧ d'.ignoreBOM = d.ignoreBOM ∧ d'.bomSeen = d.bomSeen

theorem SameOptions.reset (h : SameOptions d d') : d'.reset = d.reset := by
  obtain ⟨hf, hi, hs⟩ := h
  rw [TextDecoder.reset, TextDecoder.reset, hf, hi, hs]

theorem malformed_error (h : d.malformed = .error d') : d' = d := by
  unfold malformed at h
  split at h
  · exact (Except.error.inj h).symm
  · cases h

theorem lead_error {byte : Nat} (h : d.lead byte = .error d') : d' = d := by
  unfold lead at h
  repeat' split at h
  all_goals first
    | exact malformed_error h
    | cases h

theorem reset_of_needed (hp : Unfinished sub) (hd : d = d.hold sub) (hn : d.needed = 0) :
    d.reset = d := by
  rw [hd, hold_needed hp] at hn
  rw [hn] at hd
  exact hd.symm

theorem decodeByte_error {byte : Nat} (hp : Unfinished sub) (hd : d = d.hold sub)
    (h : d.decodeByte byte = .error d') : d' = d.reset := by
  unfold decodeByte at h
  split at h
  · next hn =>
    rw [reset_of_needed hp hd hn]
    exact lead_error h
  · split at h
    · cases hm : d.reset.malformed with
      | error e =>
        rw [hm] at h
        cases h
        exact malformed_error hm
      | ok r =>
        obtain ⟨broken, d₁⟩ := r
        rw [hm] at h
        have hd₁ : d₁ = d.reset := by
          unfold malformed at hm
          split at hm
          · cases hm
          · exact (Prod.mk.inj (Except.ok.inj hm)).2.symm
        cases hl : d₁.lead byte with
        | error e =>
          simp only [Except.bind, hl, Except.map] at h
          cases h
          exact (lead_error hl).trans hd₁
        | ok r =>
          simp only [Except.bind, hl, Except.map] at h
          cases h
    · cases h

theorem decodeBytes_error {bs out : List Nat} (h : Reading d bs out sub) {chunk : List Nat}
    (he : d.decodeBytes chunk = .error d') : d' = d.reset := by
  induction chunk generalizing d bs out sub with
  | nil => cases he
  | cons byte rest ih =>
    have hread := decodeByte_reads h byte
    rw [decodeBytes] at he
    cases hb : d.decodeByte byte with
    | error e =>
      rw [hb] at he
      cases he
      exact decodeByte_error h.pending h.state hb
    | ok r =>
      obtain ⟨ps, d₁⟩ := r
      rw [hb] at hread he
      obtain ⟨hsame, sub', hr⟩ := hread
      cases hrest : d₁.decodeBytes rest with
      | error e =>
        simp only [Except.bind, hrest, Except.map] at he
        cases he
        rw [ih hr hrest]
        exact SameOptions.reset hsame
      | ok r =>
        simp only [Except.bind, hrest, Except.map] at he
        cases he

/-- What is open is closed at the end of the bytes, also where that throws. -/
theorem flush_state (hp : Unfinished sub) (hd : d = d.hold sub) :
    match d.flush with
    | .ok (_, d') | .error d' => d' = d.reset := by
  unfold flush malformed
  split
  · next heq =>
    split at heq
    · split at heq
      · cases heq
      · exact (Prod.mk.inj (Except.ok.inj heq)).2.symm
    · next hn =>
      have hreset := reset_of_needed hp hd (not_not.mp hn)
      rw [hreset]
      exact (Prod.mk.inj (Except.ok.inj heq)).2.symm
  · next heq =>
    split at heq
    · split at heq
      · exact (Except.error.inj heq).symm
      · cases heq
    · cases heq

/-! ## what a decoder is between two calls -/

/-- what these bytes left open -/
structure Open (d : TextDecoder) (sub : List Nat) : Prop where
  unfinished : Unfinished sub
  state : d = d.hold sub

/-- a decoder of these options, after any calls -/
structure Between (fatal ignoreBOM : Bool) (d : TextDecoder) : Prop where
  fatal_eq : d.fatal = fatal
  ignoreBOM_eq : d.ignoreBOM = ignoreBOM
  bom : ignoreBOM = true → d.bomSeen = false
  opened : ∃ sub, d.Open sub

theorem Open.reading (h : d.Open sub) : Reading d sub [] sub :=
  ⟨h.unfinished, h.state, Leads.refl sub, fun _ => ⟨by simp [Scalars], rfl⟩⟩

theorem open_reset (d : TextDecoder) : d.reset.Open [] := ⟨.nil, rfl⟩

theorem open_utf8 (fatal ignoreBOM : Bool) : (utf8 fatal ignoreBOM).Open [] := ⟨.nil, rfl⟩

theorem points_end (h : d.Open sub) (bytes : List Nat) :
    match d.points bytes false with
    | .ok (_, d') => d' = d.reset ∧ (d.fatal = true → WellFormed (sub ++ bytes))
    | .error d' => d' = d.reset ∧ d.fatal = true ∧ ¬ WellFormed (sub ++ bytes) := by
  have hlast := points_last h.reading bytes
  have hbytes := decodeBytes_reads h.reading bytes
  unfold points at hlast ⊢
  cases hb : d.decodeBytes bytes with
  | error d₁ =>
    rw [hb] at hlast
    exact ⟨decodeBytes_error h.reading hb, hlast⟩
  | ok r =>
    obtain ⟨ps, d₁⟩ := r
    rw [hb] at hlast hbytes
    obtain ⟨hsame, sub', hr⟩ := hbytes
    have hreset : d₁.reset = d.reset := SameOptions.reset hsame
    have hflush := flush_state hr.pending hr.state
    cases hf : d₁.flush with
    | error d₂ =>
      simp only [Except.bind, hf, Except.map, Bool.false_eq_true, ↓reduceIte] at hlast hflush ⊢
      exact ⟨hflush.trans hreset, hlast⟩
    | ok r =>
      simp only [Except.bind, hf, Except.map, Bool.false_eq_true, ↓reduceIte] at hlast hflush ⊢
      exact ⟨hflush.trans hreset, hlast.2.2⟩

theorem dropBom_bomSeen (d : TextDecoder) (ps : List Nat) (b : Bool) :
    { (d.dropBom ps).2 with bomSeen := b } = { d with bomSeen := b } := by
  unfold dropBom
  split <;> rfl

/-- The last call of a stream: it returns and leaves a fresh decoder, or throws and leaves one that
still has `bomSeen`. -/
theorem decode_end (h : d.Open sub) (chunk : Chunk) :
    ((d.decode chunk.input false).2 = .utf8 d.fatal d.ignoreBOM ∧
        (d.fatal = true → WellFormed (sub ++ chunk.bytes))) ∨
      ((d.decode chunk.input false).2 = d.reset ∧ d.fatal = true ∧
        ¬ WellFormed (sub ++ chunk.bytes)) := by
  have hend := points_end h chunk.bytes
  rw [decode, chunk.isBytes]
  dsimp only
  cases hp : d.points chunk.bytes false with
  | error d' =>
    rw [hp] at hend
    exact .inr hend
  | ok r =>
    obtain ⟨ps, d'⟩ := r
    rw [hp] at hend
    obtain ⟨rfl, hwf⟩ := hend
    refine .inl ⟨?_, hwf⟩
    show { (d.reset.dropBom ps).2 with bomSeen := false } = _
    rw [dropBom_bomSeen]
    rfl

theorem points_more (d : TextDecoder) (bytes : List Nat) :
    d.points bytes true = d.decodeBytes bytes := by
  unfold points
  cases d.decodeBytes bytes <;> rfl

theorem decode_more (h : d.Open sub) (chunk : Chunk) :
    (∃ sub', (d.decode chunk.input true).2.Open sub') ∧
      (d.decode chunk.input true).2.fatal = d.fatal ∧
      (d.decode chunk.input true).2.ignoreBOM = d.ignoreBOM ∧
      (d.ignoreBOM = true → d.bomSeen = false → (d.decode chunk.input true).2.bomSeen = false) := by
  have hread := decodeBytes_reads h.reading chunk.bytes
  rw [decode, chunk.isBytes]
  dsimp only
  rw [points_more]
  cases hb : d.decodeBytes chunk.bytes with
  | error d' =>
    obtain rfl := decodeBytes_error h.reading hb
    exact ⟨⟨[], open_reset d⟩, rfl, rfl, fun _ hs => hs⟩
  | ok r =>
    obtain ⟨ps, d'⟩ := r
    rw [hb] at hread
    obtain ⟨⟨hf, hi, hs⟩, sub', hr⟩ := hread
    have hdrop := dropBom_reading hr ps
    obtain ⟨hf', hi'⟩ := dropBom_options (d := d') ps
    refine ⟨⟨sub', hdrop.pending, hdrop.state⟩, hf'.trans hf, hi'.trans hi, fun hkeep hseen => ?_⟩
    show (d'.dropBom ps).2.bomSeen = false
    rw [dropBom, if_neg (by simp [hi, hkeep]), hs]
    exact hseen

variable {fatal ignoreBOM : Bool}

theorem Between.step (h : Between fatal ignoreBOM d) (call : DecodeCall) :
    Between fatal ignoreBOM (d.decode call.input call.stream).2 := by
  obtain ⟨hf, hi, hb, sub, hopen⟩ := h
  obtain ⟨input, stream⟩ := call
  cases hbytes : toBytes input with
  | none =>
    rw [decode, hbytes]
    exact ⟨hf, hi, hb, sub, hopen⟩
  | some bytes =>
    let chunk : Chunk := ⟨input, bytes, hbytes⟩
    cases stream with
    | true =>
      obtain ⟨hsub, hf', hi', hb'⟩ := decode_more hopen chunk
      refine ⟨hf'.trans hf, hi'.trans hi, fun hkeep => ?_, hsub⟩
      exact hb' (hi.trans hkeep) (hb hkeep)
    | false =>
      rcases decode_end hopen chunk with ⟨heq, -⟩ | ⟨heq, -⟩
      · show Between _ _ (d.decode chunk.input false).2
        rw [heq]
        exact ⟨hf, hi, fun _ => rfl, [], open_utf8 _ _⟩
      · show Between _ _ (d.decode chunk.input false).2
        rw [heq]
        exact ⟨hf, hi, hb, [], open_reset _⟩

theorem between_after (fatal ignoreBOM : Bool) (calls : List DecodeCall) :
    Between fatal ignoreBOM ((utf8 fatal ignoreBOM).after calls) := by
  have hrun : ∀ d, Between fatal ignoreBOM d → Between fatal ignoreBOM (d.after calls) := by
    induction calls with
    | nil => exact fun d h => h
    | cons call calls ih => exact fun d h => ih _ (h.step call)
  exact hrun _ ⟨rfl, rfl, fun _ => rfl, [], open_utf8 fatal ignoreBOM⟩

/-! ## after the last call -/

/-- the text `a` after a byte order mark -/
def marked : DecodeCall := ⟨.arrayBuffer [0xef, 0xbb, 0xbf, 0x61], false⟩

/-- A decoder that does not look for the byte order mark can be told from a fresh one. -/
theorem not_behavesLike (fatal : Bool) :
    ¬ BehavesLike { utf8 fatal false with bomSeen := true } (utf8 fatal false) := by
  intro hall
  have hmarked := hall [marked]
  cases fatal <;> exact absurd hmarked (by decide)

theorem bomSeen_told (h : d.Open []) (hi : d.ignoreBOM = false) (hs : d.bomSeen = true) :
    ¬ BehavesLike d (utf8 d.fatal d.ignoreBOM) := by
  have hd : d = { utf8 d.fatal false with bomSeen := true } := by
    refine h.state.trans ?_
    rw [hold, reset, hs, hi]
    rfl
  rw [hi]
  intro hall
  rw [hd] at hall
  exact not_behavesLike d.fatal hall

/-- So can one with an open sequence, by a call without an argument. -/
theorem open_told (h : d.Open sub) (hne : sub ≠ []) :
    ¬ BehavesLike d (utf8 d.fatal d.ignoreBOM) := by
  intro hall
  have hneeded : d.needed ≠ 0 := by
    rw [h.state]
    exact fun h0 => hne ((hold_needed h.unfinished).mp h0)
  have hflush : d.points [] false = d.reset.malformed := by
    have hclosed : d.flush = d.reset.malformed := if_pos hneeded
    rw [points, decodeBytes]
    simp only [Except.bind, hclosed, Bool.false_eq_true, ↓reduceIte, List.nil_append]
    cases d.reset.malformed <;> rfl
  have hfresh : ∀ f i, ((utf8 f i).decode .undefined false).1 = .ok [] := by decide
  have hfirst : (d.decode .undefined false).1 = .ok [] :=
    (List.cons.inj (hall [⟨.undefined, false⟩])).1.trans (hfresh _ _)
  rw [decode] at hfirst
  simp only [toBytes, hflush] at hfirst
  unfold malformed at hfirst
  split at hfirst
  · next heq =>
    split at heq
    · cases hfirst
    · cases heq
  · next heq =>
    split at heq
    · cases heq
    · obtain ⟨rfl, rfl⟩ := Prod.mk.inj (Except.ok.inj heq)
      have hdrop : (d.reset.dropBom [replacement]).1 = [replacement] := by
        unfold dropBom
        split <;> rfl
      simp only [hdrop] at hfirst
      exact absurd hfirst (by decide)

/-- after a call without `stream` that bytes were given to -/
theorem ended_bytes_iff (hopen : d.Open sub) (hb : d.ignoreBOM = true → d.bomSeen = false)
    (chunk : Chunk) :
    BehavesLike (d.decode chunk.input false).2 (utf8 d.fatal d.ignoreBOM) ↔
      d.fatal = false ∨ d.bomSeen = false ∨
        ∃ sub, d.Open sub ∧ WellFormed (sub ++ chunk.bytes) := by
  rcases decode_end hopen chunk with ⟨heq, hwf⟩ | ⟨heq, hf, hbad⟩
  · rw [heq]
    refine iff_of_true (fun _ => rfl) ?_
    cases hf : d.fatal with
    | false => exact .inl rfl
    | true => exact .inr (.inr ⟨sub, hopen, hwf hf⟩)
  · rw [heq]
    cases hseen : d.bomSeen with
    | false =>
      have hreset : d.reset = utf8 d.fatal d.ignoreBOM := by
        rw [reset, hseen]
        rfl
      rw [hreset]
      exact iff_of_true (fun _ => rfl) (.inr (.inl rfl))
    | true =>
      have hi : d.ignoreBOM = false := by
        cases hi : d.ignoreBOM with
        | false => rfl
        | true => exact absurd (hb hi) (by simp [hseen])
      refine iff_of_false (bomSeen_told (open_reset d) hi hseen) ?_
      rintro (hno | hno | ⟨sub', hopen', hwf⟩)
      · rw [hf] at hno
        cases hno
      · cases hno
      · -- the same bytes would not have thrown
        rcases decode_end hopen' chunk with ⟨heq', -⟩ | ⟨-, -, hbad'⟩
        · have hsame := congrArg TextDecoder.bomSeen (heq'.symm.trans heq)
          rw [reset, hseen] at hsame
          cases hsame
        · exact hbad' hwf

theorem fresh_iff (hopen : d.Open sub) (hb : d.ignoreBOM = true → d.bomSeen = false) :
    BehavesLike d (utf8 d.fatal d.ignoreBOM) ↔ d.Open [] ∧ d.bomSeen = false := by
  constructor
  · intro hall
    have hnil : sub = [] := by
      by_contra hne
      exact open_told hopen hne hall
    subst hnil
    refine ⟨hopen, ?_⟩
    cases hseen : d.bomSeen with
    | false => rfl
    | true =>
      cases hi : d.ignoreBOM with
      | false => exact absurd hall (bomSeen_told hopen hi hseen)
      | true => exact hseen.symm.trans (hb hi)
  · rintro ⟨h, hseen⟩
    have hd : d = utf8 d.fatal d.ignoreBOM := by
      refine h.state.trans ?_
      rw [hold, reset, hseen]
      rfl
    rw [← hd]
    exact fun _ => rfl

/-- For every history of calls and every call without `stream`, whether it returns or throws: the
decoder then behaves like a fresh one exactly when, of a call with bytes, it is not fatal, or no byte
order mark was looked for in the stream, or the bytes end the open sequence and are well formed; and,
of a call whose argument has no bytes, it did so before. -/
theorem ended_iff (fatal ignoreBOM : Bool) (history : List DecodeCall) (input : Input) :
    BehavesLike (((utf8 fatal ignoreBOM).after history).decode input false).2
        (utf8 fatal ignoreBOM) ↔
      match toBytes input with
      | some bytes =>
        fatal = false ∨ ((utf8 fatal ignoreBOM).after history).bomSeen = false ∨
          ∃ sub, ((utf8 fatal ignoreBOM).after history).Open sub ∧ WellFormed (sub ++ bytes)
      | none =>
        ((utf8 fatal ignoreBOM).after history).Open [] ∧
          ((utf8 fatal ignoreBOM).after history).bomSeen = false := by
  have hbetween := between_after fatal ignoreBOM history
  generalize (utf8 fatal ignoreBOM).after history = d at hbetween
  obtain ⟨rfl, rfl, hb, sub, hopen⟩ := hbetween
  cases hbytes : toBytes input with
  | some bytes => exact ended_bytes_iff hopen hb ⟨input, bytes, hbytes⟩
  | none =>
    have hsame : (d.decode input false).2 = d := by rw [decode, hbytes]
    rw [hsame]
    exact fresh_iff hopen hb

/-- `a` in a first chunk, a byte that is malformed at the end, and then a text with a byte order mark,
which is kept -/
theorem a_mark_is_kept : ¬ ∀ (fatal ignoreBOM : Bool) (history : List DecodeCall) (input : Input),
    BehavesLike (((utf8 fatal ignoreBOM).after history).decode input false).2
      (utf8 fatal ignoreBOM) := by
  intro hall
  exact not_behavesLike true (hall true false [⟨.arrayBuffer [0x61], true⟩] (.arrayBuffer [0xff]))

end TextDecoder

end NovaRuntime
