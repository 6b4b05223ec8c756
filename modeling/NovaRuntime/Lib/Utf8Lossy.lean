import NovaRuntime.Lib.Utf8

/-!
# Decoding UTF-8 with replacement

`lossy` reads bytes one by one and holds the beginning of an encoding that is not over.

* `codePoint`        the code point of a whole sequence;
* `lossyFrom`, `lossy`   the text of any bytes;
* `lossy_decodes`    it is the one that `DecodesTo` describes;
* `toUTF8_singleton`   the encoding is that of Lean's strings.
-/

namespace Lib
namespace Utf8

instance (b : Nat) : Decidable (Tail b) := by unfold Tail; infer_instance
instance (a b : Nat) : Decidable (Second a b) := by unfold Second; infer_instance

instance : (sub : List Nat) → (b : Nat) → Decidable (Continues sub b)
  | [], b => inferInstanceAs (Decidable (b ≤ 0x7F ∨ 0xC2 ≤ b ∧ b ≤ 0xF4))
  | [a], b => inferInstanceAs (Decidable (Second a b))
  | _ :: _ :: _, b => inferInstanceAs (Decidable (Tail b))

/-- the code point of these bytes, if nothing is missing -/
def codePoint : List Nat → Option Nat
  | [a] => if a ≤ 0x7F then some a else none
  | [a, b] => if a ≤ 0xDF then some (a % 32 * 64 + b % 64) else none
  | [a, b, c] => if a ≤ 0xEF then some ((a % 16 * 64 + b % 64) * 64 + c % 64) else none
  | [a, b, c, d] => some (((a % 8 * 64 + b % 64) * 64 + c % 64) * 64 + d % 64)
  | _ => none

/-- what is read after `sub`, the beginning of an encoding -/
def lossyFrom : List Nat → List Nat → List Nat
  | sub, [] => if sub = [] then [] else [replacement]
  | sub, b :: rest =>
    if Continues sub b then
      match codePoint (sub ++ [b]) with
      | some c => c :: lossyFrom [] rest
      | none => lossyFrom (sub ++ [b]) rest
    else if sub = [] then replacement :: lossyFrom [] rest
    -- the byte that cuts an encoding short may begin another one
    else if Continues [] b then
      match codePoint [b] with
      | some c => replacement :: c :: lossyFrom [] rest
      | none => replacement :: lossyFrom [b] rest
    else replacement :: replacement :: lossyFrom [] rest

def lossy (bs : List Nat) : List Nat := lossyFrom [] bs

/-! ## one byte -/

theorem continues_cases {sub : List Nat} (h : Unfinished sub) {b : Nat} (hb : Continues sub b) :
    (∃ c, codePoint (sub ++ [b]) = some c ∧ Sequence (sub ++ [b]) c) ∨
      codePoint (sub ++ [b]) = none ∧ Unfinished (sub ++ [b]) := by
  cases h with
  | nil =>
    rcases hb with hb | hb
    · exact .inl ⟨b, if_pos hb, .one hb⟩
    · exact .inr ⟨if_neg (by omega), .lead hb⟩
  | @lead a ha =>
    by_cases h1 : a ≤ 0xDF
    · exact .inl ⟨_, if_pos h1, .two ⟨ha.1, h1⟩ hb⟩
    · exact .inr ⟨if_neg h1, .second ⟨by omega, ha.2⟩ hb⟩
  | @second a b' ha hb' =>
    by_cases h1 : a ≤ 0xEF
    · exact .inl ⟨_, if_pos h1, .three ⟨ha.1, h1⟩ hb' hb⟩
    · exact .inr ⟨if_neg h1, .third ⟨by omega, ha.2⟩ hb' hb⟩
  | third ha hb' hc => exact .inl ⟨_, rfl, .four ha hb' hc hb⟩

theorem lossyFrom_bad {b : Nat} (hb : ¬ Continues [] b) (rest : List Nat) :
    lossyFrom [] (b :: rest) = replacement :: lossyFrom [] rest := by
  rw [lossyFrom, if_neg hb, if_pos rfl]

theorem lossyFrom_whole {sub : List Nat} {b c : Nat} (hb : Continues sub b)
    (hc : codePoint (sub ++ [b]) = some c) (rest : List Nat) :
    lossyFrom sub (b :: rest) = c :: lossyFrom [] rest := by
  rw [lossyFrom, if_pos hb, hc]

theorem lossyFrom_part {sub : List Nat} {b : Nat} (hb : Continues sub b)
    (hc : codePoint (sub ++ [b]) = none) (rest : List Nat) :
    lossyFrom sub (b :: rest) = lossyFrom (sub ++ [b]) rest := by
  rw [lossyFrom, if_pos hb, hc]

/-- What cuts an encoding short is read again. -/
theorem lossyFrom_cut {sub : List Nat} {b : Nat} (hb : ¬ Continues sub b) (hne : sub ≠ [])
    (rest : List Nat) :
    lossyFrom sub (b :: rest) = replacement :: lossyFrom [] (b :: rest) := by
  rw [lossyFrom, if_neg hb, if_neg hne]
  by_cases hlead : Continues [] b
  · rw [if_pos hlead]
    cases hc : codePoint [b] with
    | some c => rw [lossyFrom_whole (show Continues [] b from hlead) hc]
    | none => rw [lossyFrom_part (show Continues [] b from hlead) hc, List.nil_append]
  · rw [if_neg hlead, lossyFrom_bad hlead]

/-! ## the text -/

theorem lossyFrom_decodes (bs : List Nat) : ∀ {sub : List Nat}, Unfinished sub →
    DecodesTo (sub ++ bs) (lossyFrom sub bs) := by
  induction bs with
  | nil =>
    intro sub h
    rw [List.append_nil, lossyFrom]
    by_cases hne : sub = []
    · rw [if_pos hne, hne]
      exact .nil
    · rw [if_neg hne]
      exact (Leads.refl sub).decodes_cut h hne
  | cons b rest ih =>
    -- a byte that goes on
    have hgoes : ∀ {sub : List Nat}, Unfinished sub → Continues sub b →
        DecodesTo (sub ++ b :: rest) (lossyFrom sub (b :: rest)) := by
      intro sub h hb
      have happend : sub ++ b :: rest = sub ++ [b] ++ rest := by simp
      obtain ⟨c, hc, hseq⟩ | ⟨hc, hpart⟩ := continues_cases h hb
      · obtain ⟨hscalar, hbytes⟩ := bytes_of_sequence hseq
        rw [lossyFrom_whole hb hc, happend, ← hbytes]
        exact .scalar hscalar (ih .nil)
      · rw [lossyFrom_part hb hc, happend]
        exact ih hpart
    -- any byte, where nothing is held
    have hfirst : DecodesTo (b :: rest) (lossyFrom [] (b :: rest)) := by
      by_cases hb : Continues [] b
      · exact hgoes .nil hb
      · rw [lossyFrom_bad hb]
        exact (Leads.refl [b]).bad (Unfinished.nil.not_begins hb) rest _ (ih .nil)
    intro sub h
    by_cases hb : Continues sub b
    · exact hgoes h hb
    · by_cases hne : sub = []
      · subst hne
        exact hfirst
      · have hcut := (Leads.refl (sub ++ [b])).cut h hne (h.not_begins hb) rest _ hfirst
        rw [lossyFrom_cut hb hne]
        rwa [List.append_assoc] at hcut

theorem lossy_decodes (bs : List Nat) : DecodesTo bs (lossy bs) := lossyFrom_decodes bs .nil

theorem lossy_bytes {cs : List Nat} (h : Scalars cs) : lossy (cs.flatMap bytes) = cs :=
  (lossy_decodes _).unique (decodesTo_bytes h)

theorem DecodesTo.scalars {bs out : List Nat} (h : DecodesTo bs out) : Scalars out := by
  induction h with
  | nil => exact fun _ hc => absurd hc List.not_mem_nil
  | scalar hc _ ih => exact List.forall_mem_cons.mpr ⟨hc, ih⟩
  | malformed _ _ ih => exact List.forall_mem_cons.mpr ⟨by decide, ih⟩

theorem scalars_lossy (bs : List Nat) : Scalars (lossy bs) := (lossy_decodes bs).scalars

/-! ## the bytes of a string -/

theorem bytes_lt {c : Nat} (h : Scalar c) : ∀ b ∈ bytes c, b < 256 := by
  unfold Scalar at h
  unfold bytes
  split_ifs <;> simp only [List.forall_mem_cons, List.not_mem_nil, false_implies, implies_true,
    and_true] <;> omega

theorem toList_loop (bs : ByteArray) (i : Nat) (r : List UInt8) :
    ByteArray.toList.loop bs i r = r.reverse ++ bs.data.toList.drop i := by
  induction i, r using ByteArray.toList.loop.induct bs with
  | case1 i r h ih =>
    have hi : i < bs.data.toList.length := h
    have hget : bs.get! i = bs.data.toList[i] := by
      show bs.data[i]! = _
      rw [getElem!_pos bs.data i h]
      rfl
    rw [ByteArray.toList.loop, if_pos h, ih, List.drop_eq_getElem_cons hi, List.reverse_cons,
      List.append_assoc, hget]
    rfl
  | case2 i r h =>
    rw [ByteArray.toList.loop, if_neg h, List.drop_eq_nil_of_le (Nat.le_of_not_lt h),
      List.append_nil]

theorem toUTF8_singleton {c : Nat} (h : Scalar c) :
    (String.singleton (Char.ofNat c)).toUTF8.toList = (bytes c).map UInt8.ofNat := by
  unfold Scalar at h
  have hval : (Char.ofNat c).val.toNat = c := by
    have hv : c.isValidChar := by
      unfold Nat.isValidChar
      omega
    rw [Char.ofNat, dif_pos hv]
    rfl
  have hbytes : (String.singleton (Char.ofNat c)).toUTF8.toList =
      String.utf8EncodeChar (Char.ofNat c) := by
    show (String.singleton (Char.ofNat c)).toByteArray.toList = _
    rw [String.toByteArray_singleton, List.utf8Encode_singleton, ByteArray.toList, toList_loop]
    simp
  rw [hbytes, String.utf8EncodeChar, hval, bytes]
  split_ifs <;> first | omega | skip
  · rfl
  · rw [show c / 64 % 32 + 192 = 192 + c / 64 by omega, Nat.add_comm (c % 64)]
    rfl
  · rw [show c / 4096 % 16 + 224 = 224 + c / 4096 by omega, Nat.add_comm (c / 64 % 64),
      Nat.add_comm (c % 64)]
    rfl
  · rw [show c / 262144 % 8 + 240 = 240 + c / 262144 by omega, Nat.add_comm (c / 4096 % 64),
      Nat.add_comm (c / 64 % 64), Nat.add_comm (c % 64)]
    rfl

end Utf8
end Lib
