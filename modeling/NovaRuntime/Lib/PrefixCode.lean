import Mathlib.Data.List.Basic

/-!
# Codes in which no word begins another

* `PrefixCode`   a word for each letter, none of them the beginning of another's;
* `spell`        what letters are written as, and `Spelled`, what is the spelling of some;
* `unmarked`     letters without a mark at their head;
* `unmarked_pieces_iff`   marks that are lost piece by piece, against one mark of the whole.
-/

namespace Lib

structure PrefixCode (α β : Type*) where
  word : α → List β
  ne_nil (a : α) : word a ≠ []
  prefixFree {a b : α} : word a <+: word b → a = b

namespace PrefixCode
variable {α β : Type*} (code : PrefixCode α β)

def spell (s : List α) : List β := s.flatMap code.word

def Spelled (bs : List β) : Prop := ∃ s, bs = code.spell s

theorem spell_nil : code.spell [] = [] := rfl

theorem spell_cons (a : α) (s : List α) : code.spell (a :: s) = code.word a ++ code.spell s := rfl

theorem spell_append (s t : List α) : code.spell (s ++ t) = code.spell s ++ code.spell t :=
  List.flatMap_append

theorem spell_flatten (ss : List (List α)) :
    code.spell ss.flatten = (ss.map code.spell).flatten := by
  induction ss with
  | nil => rfl
  | cons s ss ih => rw [List.flatten_cons, spell_append, ih, List.map_cons, List.flatten_cons]

theorem word_append_inj {a b : α} {r r' : List β} (h : code.word a ++ r = code.word b ++ r') :
    a = b ∧ r = r' := by
  have ha : code.word a <+: code.word b ++ r' := ⟨r, h⟩
  have hab : a = b := by
    rcases List.prefix_or_prefix_of_prefix ha (List.prefix_append _ _) with h | h
    · exact code.prefixFree h
    · exact (code.prefixFree h).symm
  subst hab
  exact ⟨rfl, List.append_cancel_left h⟩

/-- letters are read from the front, whatever follows -/
theorem spell_append_eq {s t : List α} {r : List β} (h : code.spell t = code.spell s ++ r) :
    ∃ v, r = code.spell v ∧ t = s ++ v := by
  induction s generalizing t with
  | nil => exact ⟨t, h.symm, rfl⟩
  | cons a s ih =>
    cases t with
    | nil =>
      rw [spell_cons, List.append_assoc] at h
      exact absurd (List.append_eq_nil_iff.mp h.symm).1 (code.ne_nil a)
    | cons b t =>
      rw [spell_cons, spell_cons, List.append_assoc] at h
      obtain ⟨rfl, hrest⟩ := code.word_append_inj h
      obtain ⟨v, hr, ht⟩ := ih hrest
      exact ⟨v, hr, congrArg (List.cons b) ht⟩

theorem spell_eq_nil {s : List α} : code.spell s = [] ↔ s = [] := by
  cases s with
  | nil => exact iff_of_true rfl rfl
  | cons a s =>
    refine iff_of_false ?_ (List.cons_ne_nil a s)
    intro h
    exact code.ne_nil a (List.append_eq_nil_iff.mp h).1

theorem word_prefix_spell {a : α} {s : List α} :
    code.word a <+: code.spell s ↔ s.head? = some a := by
  constructor
  · rintro ⟨r, h⟩
    have hone : code.spell s = code.spell [a] ++ r := by
      rw [← h, spell_cons, spell_nil, List.append_nil]
    obtain ⟨v, -, rfl⟩ := code.spell_append_eq hone
    rfl
  · intro h
    obtain ⟨t, rfl⟩ := List.head?_eq_some_iff.mp h
    exact List.prefix_append _ _

variable {code}

theorem exists_pieces {xs : List (List β)} (h : ∀ x ∈ xs, code.Spelled x) :
    ∃ ss : List (List α), xs = ss.map code.spell := by
  induction xs with
  | nil => exact ⟨[], rfl⟩
  | cons x xs ih =>
    obtain ⟨s, rfl⟩ := h x List.mem_cons_self
    obtain ⟨ss, rfl⟩ := ih fun y hy => h y (List.mem_cons_of_mem _ hy)
    exact ⟨s :: ss, rfl⟩

end PrefixCode

/-! ## marks -/

section
variable {α γ : Type*}

/-- letters with a mark at their head -/
def Marked (mark : Option α) (s : List α) : Prop := ∃ a, mark = some a ∧ s.head? = some a

/-- the letters without it -/
def unmarked [DecidableEq α] (mark : Option α) : List α → List α
  | [] => []
  | a :: s => if mark = some a then s else a :: s

variable {mark : Option α}

theorem marked_cons {a : α} {s : List α} : Marked mark (a :: s) ↔ mark = some a := by
  constructor
  · rintro ⟨b, hb, hhead⟩
    cases hhead
    exact hb
  · intro h
    exact ⟨a, h, rfl⟩

theorem not_marked_nil : ¬Marked mark [] := by
  rintro ⟨a, -, h⟩
  cases h

variable [DecidableEq α]

theorem unmarked_of_not {s : List α} (h : ¬Marked mark s) : unmarked mark s = s := by
  cases s with
  | nil => rfl
  | cons a s => exact if_neg fun ha => h (marked_cons.mpr ha)

theorem mem_unmarked {a : α} {s : List α} (h : a ∈ unmarked mark s) : a ∈ s := by
  cases s with
  | nil => exact h
  | cons b s =>
    rw [unmarked] at h
    split at h
    · exact List.mem_cons_of_mem _ h
    · exact h

/-- only the head of a text can be its mark -/
theorem unmarked_append {s : List α} (h : s ≠ []) (t : List α) :
    unmarked mark (s ++ t) = unmarked mark s ++ t := by
  cases s with
  | nil => exact absurd rfl h
  | cons a s =>
    show (if mark = some a then s ++ t else a :: (s ++ t)) = _
    rw [unmarked]
    split <;> rfl

variable {f : α → List γ}

theorem length_unmarked_le (s : List α) :
    ((unmarked mark s).flatMap f).length ≤ (s.flatMap f).length := by
  cases s with
  | nil => exact Nat.le_refl _
  | cons a s =>
    rw [unmarked]
    split
    · rw [List.flatMap_cons, List.length_append]
      omega
    · exact Nat.le_refl _

theorem length_unmarked_lt (hf : ∀ a, mark = some a → f a ≠ []) {s : List α} (h : Marked mark s) :
    ((unmarked mark s).flatMap f).length < (s.flatMap f).length := by
  cases s with
  | nil => exact absurd h not_marked_nil
  | cons a s =>
    have ha : mark = some a := marked_cons.mp h
    have hpos : 0 < (f a).length := List.length_pos_of_ne_nil (hf a ha)
    rw [unmarked, if_pos ha, List.flatMap_cons, List.length_append]
    omega

theorem length_pieces_le (ss : List (List α)) :
    (ss.flatMap fun s => (unmarked mark s).flatMap f).length ≤ (ss.flatten.flatMap f).length := by
  induction ss with
  | nil => exact Nat.le_refl _
  | cons s ss ih =>
    have hs : ((unmarked mark s).flatMap f).length ≤ (s.flatMap f).length := length_unmarked_le s
    rw [List.flatMap_cons, List.flatten_cons, List.flatMap_append, List.length_append,
      List.length_append]
    omega

/-- A lost mark is missed. -/
theorem pieces_eq_iff (hf : ∀ a, mark = some a → f a ≠ []) (ss : List (List α)) :
    (ss.flatMap fun s => (unmarked mark s).flatMap f) = ss.flatten.flatMap f ↔
      ∀ s ∈ ss, ¬Marked mark s := by
  induction ss with
  | nil => exact iff_of_true rfl fun s hs => absurd hs List.not_mem_nil
  | cons s ss ih =>
    rw [List.flatMap_cons, List.flatten_cons, List.flatMap_append, List.forall_mem_cons, ← ih]
    constructor
    · intro h
      have hlength := congrArg List.length h
      rw [List.length_append, List.length_append] at hlength
      have hrest : (ss.flatMap fun s => (unmarked mark s).flatMap f).length ≤
          (ss.flatten.flatMap f).length := length_pieces_le ss
      have hs : ¬Marked mark s := by
        intro hmarked
        have := length_unmarked_lt hf hmarked
        omega
      rw [unmarked_of_not hs] at h
      exact ⟨hs, List.append_cancel_left h⟩
    · rintro ⟨hs, h⟩
      rw [unmarked_of_not hs, h]

/-- Pieces that each lose their mark are the whole without its own if no later one has a mark. -/
theorem unmarked_pieces_iff (hf : ∀ a, mark = some a → f a ≠ []) (ss : List (List α)) :
    (ss.flatMap fun s => (unmarked mark s).flatMap f) = (unmarked mark ss.flatten).flatMap f ↔
      ∀ before s after, ss = before ++ s :: after → before.flatten ≠ [] → ¬Marked mark s := by
  induction ss with
  | nil =>
    refine iff_of_true rfl ?_
    intro before s after h
    cases before <;> cases h
  | cons s ss ih =>
    by_cases hs : s = []
    · subst hs
      rw [List.flatMap_cons, List.flatten_cons, List.nil_append]
      show [] ++ _ = _ ↔ _
      rw [List.nil_append, ih]
      constructor
      · intro h before t after heq hne
        cases before with
        | nil => exact absurd rfl hne
        | cons b before =>
          cases heq
          exact h before t after rfl hne
      · intro h before t after heq hne
        exact h ([] :: before) t after (congrArg (List.cons []) heq) hne
    · rw [List.flatMap_cons, List.flatten_cons, unmarked_append hs, List.flatMap_append,
        List.append_right_inj, pieces_eq_iff hf]
      constructor
      · intro h before t after heq hne
        cases before with
        | nil => exact absurd rfl hne
        | cons b before =>
          cases heq
          exact h t (List.mem_append_right _ List.mem_cons_self)
      · intro h t ht
        obtain ⟨before, after, rfl⟩ := List.append_of_mem ht
        refine h (s :: before) t after rfl ?_
        rw [List.flatten_cons]
        exact List.append_ne_nil_of_left_ne_nil hs _

end

end Lib
