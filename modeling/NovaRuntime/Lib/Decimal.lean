import NovaRuntime.Lib.JsonRoundTrip

/-!
# Reading decimal numbers

Two readers of an unsigned number below a bound.

* `leadingNumber`   the number of the digits that a text begins with;
* `parseUnsigned`   the number that a text is as a whole, a plus sign before it or not, as
                    `str::parse` reads an unsigned type;
* `Leading`, `Whole`   what these two read;
* `leadingNumber_eq_some`, `parseUnsigned_eq_some`   and that they read this.
-/

namespace Lib
open Json (isDigit digitChar takeDigits natOf NoDigit)

def decimalText (ds : List (Fin 10)) : Text := ds.map fun d => digitChar d.val

theorem decimalText_cons (d : Fin 10) (ds : List (Fin 10)) :
    decimalText (d :: ds) = digitChar d.val :: decimalText ds := rfl

theorem decimalText_eq_nil {ds : List (Fin 10)} : decimalText ds = [] ↔ ds = [] := List.map_eq_nil_iff

theorem takeDigits_decimalText (ds : List (Fin 10)) {r : Text} (hr : NoDigit r) :
    takeDigits (decimalText ds ++ r) = (ds, r) :=
  Json.takeDigits_append ds hr

theorem digitChar_of_isDigit {c : Nat} (h : isDigit c = true) :
    digitChar (Fin.ofNat 10 (c - 48)).val = c := by
  simp only [isDigit, Bool.and_eq_true, decide_eq_true_eq] at h
  show 48 + (c - 48) % 10 = c
  omega

theorem takeDigits_split (s : Text) :
    s = decimalText (takeDigits s).1 ++ (takeDigits s).2 ∧ NoDigit (takeDigits s).2 := by
  induction s with
  | nil => exact ⟨rfl, fun c hc => by cases hc⟩
  | cons c s ih =>
    rw [takeDigits]
    split
    · next hc =>
      rw [decimalText_cons, digitChar_of_isDigit hc, List.cons_append, ← ih.1]
      exact ⟨rfl, ih.2⟩
    · next hc =>
      refine ⟨rfl, fun d hd => ?_⟩
      rw [← Option.some.inj hd]
      exact Bool.eq_false_iff.mpr hc

/-! ## the digits a text begins with -/

def leadingNumber (bound : Nat) (s : Text) : Option Nat :=
  match (takeDigits s).1 with
  | [] => none
  | d :: ds => if natOf (d :: ds) < bound then some (natOf (d :: ds)) else none

/-- The text begins with the digits of this number, and no digit comes after them. -/
def Leading (bound : Nat) (s : Text) (n : Nat) : Prop :=
  ∃ ds r, s = decimalText ds ++ r ∧ ds ≠ [] ∧ NoDigit r ∧ natOf ds = n ∧ n < bound

theorem leadingNumber_eq_some {bound n : Nat} {s : Text} :
    leadingNumber bound s = some n ↔ Leading bound s n := by
  constructor
  · intro h
    obtain ⟨hsplit, hr⟩ := takeDigits_split s
    rw [leadingNumber] at h
    split at h
    · cases h
    · next d ds hds =>
      split at h
      · next hlt =>
        cases h
        rw [hds] at hsplit
        exact ⟨d :: ds, _, hsplit, List.cons_ne_nil d ds, hr, rfl, hlt⟩
      · cases h
  · rintro ⟨ds, r, rfl, hne, hr, rfl, hlt⟩
    rw [leadingNumber, takeDigits_decimalText ds hr]
    cases ds with
    | nil => exact absurd rfl hne
    | cons d ds => exact if_pos hlt

/-! ## a whole text -/

/-- more digits of a number -/
def parseDigits (bound : Nat) : Nat → Text → Option Nat
  | n, [] => some n
  | n, c :: r =>
    if isDigit c && 10 * n + (c - 48) < bound then parseDigits bound (10 * n + (c - 48)) r else none

/-- `s.parse()` for an unsigned type whose values are below `bound` -/
def parseUnsigned (bound : Nat) : Text → Option Nat
  | [] | [43] => none
  | 43 :: c :: r => parseDigits bound 0 (c :: r)
  | c :: r => parseDigits bound 0 (c :: r)

/-- The text is the digits of this number, with or without a plus sign before them. -/
def Whole (bound : Nat) (s : Text) (n : Nat) : Prop :=
  ∃ ds, (s = decimalText ds ∨ s = 43 :: decimalText ds) ∧ ds ≠ [] ∧ natOf ds = n ∧ n < bound

def natFrom (n : Nat) (ds : List (Fin 10)) : Nat := ds.foldl (fun n d => 10 * n + d.val) n

theorem le_natFrom (n : Nat) (ds : List (Fin 10)) : n ≤ natFrom n ds := by
  induction ds generalizing n with
  | nil => exact Nat.le_refl n
  | cons d ds ih =>
    have hrest := ih (10 * n + d.val)
    show n ≤ natFrom (10 * n + d.val) ds
    omega

theorem parseDigits_eq_some {bound n m : Nat} {s : Text} (hn : n < bound) :
    parseDigits bound n s = some m ↔ ∃ ds, s = decimalText ds ∧ natFrom n ds = m ∧ m < bound := by
  induction s generalizing n with
  | nil =>
    constructor
    · intro h
      cases h
      exact ⟨[], rfl, rfl, hn⟩
    · rintro ⟨ds, hds, hm, -⟩
      cases ds with
      | nil => exact congrArg some hm
      | cons d ds => cases hds
  | cons c s ih =>
    rw [parseDigits]
    constructor
    · intro h
      split at h
      · next hc =>
        obtain ⟨hdigit, hlt⟩ := Bool.and_eq_true_iff.mp hc
        obtain ⟨ds, rfl, hm, hbound⟩ := (ih (of_decide_eq_true hlt)).mp h
        refine ⟨Fin.ofNat 10 (c - 48) :: ds, ?_, ?_, hbound⟩
        · rw [decimalText_cons, digitChar_of_isDigit hdigit]
        · have hval : (Fin.ofNat 10 (c - 48)).val = c - 48 := by
            simp only [isDigit, Bool.and_eq_true, decide_eq_true_eq] at hdigit
            show (c - 48) % 10 = c - 48
            omega
          show natFrom (10 * n + (Fin.ofNat 10 (c - 48)).val) ds = m
          rw [hval, hm]
      · cases h
    · rintro ⟨ds, hds, hm, hbound⟩
      cases ds with
      | nil => cases hds
      | cons d ds =>
        obtain ⟨rfl, rfl⟩ := List.cons.inj hds
        have hval : digitChar d.val - 48 = d.val := by
          show 48 + d.val - 48 = d.val
          omega
        have hle := le_natFrom (10 * n + d.val) ds
        have hm : natFrom (10 * n + d.val) ds = m := hm
        have hlt : 10 * n + d.val < bound := by omega
        rw [hval, if_pos (by rw [Json.isDigit_digitChar d, Bool.true_and]; exact decide_eq_true hlt)]
        exact (ih hlt).mpr ⟨ds, rfl, hm, hbound⟩

theorem decimalText_head {ds : List (Fin 10)} {c : Nat} {r : Text} (h : c :: r = decimalText ds) :
    isDigit c = true := by
  cases ds with
  | nil => cases h
  | cons d ds =>
    obtain ⟨rfl, -⟩ := List.cons.inj h
    exact Json.isDigit_digitChar d

theorem parseDigits_zero {bound n c : Nat} {r : Text} (hb : 0 < bound) :
    parseDigits bound 0 (c :: r) = some n ↔
      ∃ ds, c :: r = decimalText ds ∧ ds ≠ [] ∧ natOf ds = n ∧ n < bound := by
  rw [parseDigits_eq_some hb]
  refine exists_congr fun ds => and_congr_right fun hds => ?_
  have hne : ds ≠ [] := by
    rintro rfl
    cases hds
  exact (and_iff_right hne).symm

theorem parseUnsigned_eq_some {bound n : Nat} {s : Text} (hb : 0 < bound) :
    parseUnsigned bound s = some n ↔ Whole bound s n := by
  rw [Whole]
  cases s with
  | nil =>
    refine iff_of_false (fun h => by cases h) ?_
    rintro ⟨ds, hds | hds, hne, -⟩
    · exact hne (decimalText_eq_nil.mp hds.symm)
    · cases hds
  | cons c r =>
    by_cases hc : c = 43
    · subst hc
      have hplus : parseUnsigned bound (43 :: r) = some n ↔
          ∃ ds, r = decimalText ds ∧ ds ≠ [] ∧ natOf ds = n ∧ n < bound := by
        cases r with
        | nil =>
          refine iff_of_false (fun h => by cases h) ?_
          rintro ⟨ds, hds, hne, -⟩
          exact hne (decimalText_eq_nil.mp hds.symm)
        | cons c r => exact parseDigits_zero hb
      rw [hplus]
      refine exists_congr fun ds => and_congr_left fun _ => ⟨fun h => .inr (h ▸ rfl), fun h => ?_⟩
      rcases h with h | h
      · exact absurd (decimalText_head h) (by decide)
      · exact (List.cons.inj h).2
    · have hplain : parseUnsigned bound (c :: r) = parseDigits bound 0 (c :: r) := by
        rw [parseUnsigned]
        · intro h
          exact absurd h hc
        · intro c' r' h
          exact absurd h hc
      rw [hplain, parseDigits_zero hb]
      refine exists_congr fun ds => and_congr_left fun _ => ⟨.inl, fun h => ?_⟩
      exact h.resolve_right fun hplus => hc (List.cons.inj hplus).1

end Lib
