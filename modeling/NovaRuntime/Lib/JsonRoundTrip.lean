import NovaRuntime.Lib.Json
import Mathlib.Data.Nat.Digits.Lemmas

/-!
# JSON: reading what was printed

`parse (print j) = some j` for every tree `j` (`parse_print`): digits, number tokens, escaped
strings, then values by recursion on the tree.  `print_map_encode`: printing commutes with the
change from scalar values to UTF-16 code units.  `scalars_print`: a tree of scalar values prints as
scalar values.
-/

namespace Lib.Json

/-! ## digits -/

theorem isDigit_digitChar : ∀ x : Fin 10, isDigit (digitChar x.val) = true := by decide

theorem ofNat_digitChar (x : Fin 10) : Fin.ofNat 10 (digitChar x.val - 48) = x := by
  have := x.isLt
  apply Fin.ext
  show (48 + x.val - 48) % 10 = x.val
  omega

def NoDigit (r : Text) : Prop := ∀ c ∈ r.head?, isDigit c = false

theorem takeDigits_append (ds : List (Fin 10)) {r : Text} (hr : NoDigit r) :
    takeDigits (ds.map (fun x => digitChar x.val) ++ r) = (ds, r) := by
  induction ds with
  | nil =>
    cases r with
    | nil => rfl
    | cons c r =>
      have hc : isDigit c = false := hr c (by simp)
      simp [takeDigits, hc]
  | cons d ds ih =>
    rw [List.map_cons, List.cons_append, takeDigits, if_pos (isDigit_digitChar d), ih,
      ofNat_digitChar]

theorem takeDigits1_append (d : Digits) {r : Text} (hr : NoDigit r) :
    takeDigits1 (Digits.text d ++ r) = some (d, r) := by
  unfold takeDigits1 Digits.text
  rw [takeDigits_append _ hr]

def natDigits (n : Nat) : List (Fin 10) := (Nat.digits 10 n).reverse.map (Fin.ofNat 10)

theorem natDigits_val (n : Nat) :
    (natDigits n).map (fun x => x.val) = (Nat.digits 10 n).reverse := by
  unfold natDigits
  rw [List.map_map, List.map_congr_left (g := id), List.map_id]
  intro d hd
  have hlt : d < 10 := Nat.digits_lt_base (by norm_num) (List.mem_reverse.mp hd)
  exact Nat.mod_eq_of_lt hlt

theorem natText_pos {n : Nat} (h : n ≠ 0) :
    natText n = (natDigits n).map fun x => digitChar x.val := by
  unfold natText
  rw [if_neg h, ← natDigits_val, List.map_map]
  rfl

theorem natOf_natDigits (n : Nat) : natOf (natDigits n) = n := by
  have h : natOf (natDigits n) = ((natDigits n).map (fun x => x.val)).foldl
      (fun a d => 10 * a + d) 0 := by
    unfold natOf
    rw [List.foldl_map]
  rw [h, natDigits_val, List.foldl_reverse]
  have hd := Nat.ofDigits_digits 10 n
  rw [Nat.ofDigits_eq_foldr] at hd
  conv_rhs => rw [← hd]
  congr 1
  funext d a
  simp [Nat.add_comm]

/-! ## numbers -/

/-- The text does not go on with a number: no digit, point or exponent comes first. -/
def NumEnd (r : Text) : Prop := ∀ c ∈ r.head?, isDigit c = false ∧ c ≠ 46 ∧ c ≠ 101 ∧ c ≠ 69

theorem numEnd_nil : NumEnd [] := by
  intro c hc
  cases hc

theorem numEnd_cons {c : Nat} (r : Text)
    (h : isDigit c = false ∧ c ≠ 46 ∧ c ≠ 101 ∧ c ≠ 69) : NumEnd (c :: r) := by
  intro d hd
  cases hd
  exact h

theorem NumEnd.noDigit {r : Text} (h : NumEnd r) : NoDigit r := fun c hc => (h c hc).1

theorem noDigit_cons {c : Nat} (r : Text) (h : isDigit c = false) : NoDigit (c :: r) := by
  intro d hd
  cases hd
  exact h

theorem noDigit_fracText_expText (f : Option Digits) (e : Option ExpLit) {r : Text}
    (hr : NumEnd r) : NoDigit (fracText f ++ (expText e ++ r)) := by
  cases f with
  | none =>
    cases e with
    | none => exact hr.noDigit
    | some e => exact noDigit_cons _ (by decide)
  | some d => exact noDigit_cons _ (by decide)

theorem noDigit_expText (e : Option ExpLit) {r : Text} (hr : NumEnd r) :
    NoDigit (expText e ++ r) :=
  noDigit_fracText_expText none e hr

theorem natText_eq (n : Nat) : ∃ d : Digits, natText n = Digits.text d ∧
    (d.head = 0 → n = 0 ∧ d.tail = []) ∧ (d.head ≠ 0 → natOf (d.head :: d.tail) = n) := by
  by_cases h : n = 0
  · exact ⟨⟨0, []⟩, by rw [h]; rfl, fun _ => ⟨h, rfl⟩, fun hd => absurd rfl hd⟩
  · have hl : (Nat.digits 10 n).reverse ≠ [] := by
      simpa using Nat.digits_ne_nil_iff_ne_zero.mpr h
    obtain ⟨d, ds, hd⟩ := List.exists_cons_of_ne_nil hl
    have hnat : natDigits n = Fin.ofNat 10 d :: ds.map (Fin.ofNat 10) := by
      unfold natDigits
      rw [hd, List.map_cons]
    refine ⟨⟨Fin.ofNat 10 d, ds.map (Fin.ofNat 10)⟩, ?_, fun h0 => absurd h0 ?_, fun _ => ?_⟩
    · rw [natText_pos h, hnat]
      rfl
    · -- the most significant digit of a positive number is not zero
      have hlast : (Nat.digits 10 n).getLast (Nat.digits_ne_nil_iff_ne_zero.mpr h) = d := by
        rw [List.getLast_eq_head_reverse]
        simp only [hd, List.head_cons]
      have hne := Nat.getLast_digit_ne_zero 10 h
      rw [hlast] at hne
      have hlt : d < 10 := Nat.digits_lt_base (by norm_num)
        (List.mem_reverse.mp (hd ▸ List.mem_cons_self))
      intro h1
      have h2 : d % 10 = 0 := congrArg Fin.val h1
      omega
    · rw [← hnat, natOf_natDigits]

theorem intPart_natText (n : Nat) {r : Text} (hr : NoDigit r) :
    intPart (natText n ++ r) = some (n, r) := by
  obtain ⟨d, ht, h0, h1⟩ := natText_eq n
  unfold intPart
  rw [ht, takeDigits1_append d hr]
  by_cases hd : d.head = 0
  · obtain ⟨hn, htl⟩ := h0 hd
    simp only [if_pos hd, htl, List.map_nil, List.nil_append, hn]
  · simp only [if_neg hd, h1 hd]

theorem fracPart_append (f : Option Digits) (e : Option ExpLit) {r : Text} (hr : NumEnd r) :
    fracPart (fracText f ++ (expText e ++ r)) = some (f, expText e ++ r) := by
  cases f with
  | some d =>
    show (takeDigits1 (Digits.text d ++ (expText e ++ r))).map _ = _
    rw [takeDigits1_append d (noDigit_expText e hr)]
    rfl
  | none =>
    cases e with
    | some e => rfl
    | none =>
      show fracPart r = some (none, r)
      cases r with
      | nil => rfl
      | cons c r =>
        have hc : c ≠ 46 := (hr c (by simp)).2.1
        unfold fracPart
        split
        · rename_i heq
          exact absurd (List.cons.inj heq).1 hc
        · rfl

theorem expSign_append (s : Option Bool) (d : Digits) (r : Text) :
    expSign (signText s ++ (Digits.text d ++ r)) = (s, Digits.text d ++ r) := by
  match s with
  | some false => rfl
  | some true => rfl
  | none =>
    have h1 : ∀ x : Fin 10, digitChar x.val ≠ 43 ∧ digitChar x.val ≠ 45 := by decide
    obtain ⟨h43, h45⟩ := h1 d.head
    simp only [signText, Digits.text, List.map_cons, List.cons_append, List.nil_append, expSign,
      if_neg h43, if_neg h45]

theorem expPart_append (e : Option ExpLit) {r : Text} (hr : NumEnd r) :
    expPart (expText e ++ r) = some (e, r) := by
  cases e with
  | some e =>
    have hs : expText (some e) ++ r = 101 :: (signText e.sign ++ (Digits.text e.digits ++ r)) := by
      simp [expText]
    rw [hs]
    simp only [expPart, true_or, ↓reduceIte, expSign_append,
      takeDigits1_append e.digits hr.noDigit, Option.map_some]
  | none =>
    show expPart r = _
    cases r with
    | nil => rfl
    | cons c r =>
      obtain ⟨_, _, h101, h69⟩ := hr c (by simp)
      unfold expPart
      simp only [h101, h69, or_self, ↓reduceIte]

theorem numSign_numText (n : NumLit) (r : Text) : numSign (numText n ++ r)
    = (n.neg, natText n.int ++ (fracText n.frac ++ (expText n.exp ++ r))) := by
  obtain ⟨neg, int, frac, exp⟩ := n
  cases neg with
  | true => simp [numText, numSign]
  | false =>
    obtain ⟨d, hd, _, _⟩ := natText_eq int
    have h45 : ∀ x : Fin 10, digitChar x.val ≠ 45 := by decide
    simp [numText, numSign, hd, Digits.text, h45 d.head]

/-- **A printed number token reads back**, when no part of a number follows it. -/
theorem number_numText (n : NumLit) {r : Text} (hr : NumEnd r) :
    number (numText n ++ r) = some (n, r) := by
  unfold number
  rw [numSign_numText, intPart_natText n.int (noDigit_fracText_expText n.frac n.exp hr)]
  simp only [Option.bind_some, fracPart_append n.frac n.exp hr, expPart_append n.exp hr,
    Option.map_some]

/-! ## strings -/

theorem hexVal_hexChar : ∀ d, d < 16 → hexVal (hexChar d) = some d := by decide

theorem stringBody_escape (c : Nat) (r : Text) :
    stringBody (escape c ++ r) = (stringBody r).map (push c) := by
  unfold escape
  by_cases h34 : c = 34
  · subst h34; rfl
  by_cases h92 : c = 92
  · subst h92; rfl
  by_cases h8 : c = 8
  · subst h8; rfl
  by_cases h9 : c = 9
  · subst h9; rfl
  by_cases h10 : c = 10
  · subst h10; rfl
  by_cases h12 : c = 12
  · subst h12; rfl
  by_cases h13 : c = 13
  · subst h13; rfl
  by_cases h32 : c < 32
  · have hx : hex4 48 48 (hexChar (c / 16)) (hexChar (c % 16)) = some c := by
      have h0 : hexVal 48 = some 0 := rfl
      have h1 := hexVal_hexChar (c / 16) (by omega)
      have h2 := hexVal_hexChar (c % 16) (by omega)
      simp only [hex4, h0, h1, h2, Option.bind_eq_bind, Option.bind_some, Option.pure_def,
        Option.some.injEq]
      omega
    have hu : txt "\\u00" = [92, 117, 48, 48] := by decide
    simp only [h34, h92, h8, h9, h10, h12, h13, h32, ↓reduceIte, hu, List.cons_append,
      List.nil_append, stringBody, Nat.reduceEqDiff, hx, Option.bind_some]
  · simp only [h34, h92, h8, h9, h10, h12, h13, h32, ↓reduceIte, List.cons_append,
      List.nil_append]
    rw [stringBody.eq_def]
    simp only [h34, h92, h32, ↓reduceIte]

theorem stringBody_quoted (s r : Text) :
    stringBody (s.flatMap escape ++ 34 :: r) = some (s, r) := by
  induction s with
  | nil =>
    show stringBody (34 :: r) = _
    rw [stringBody.eq_def]
    rfl
  | cons c s ih =>
    rw [List.flatMap_cons, List.append_assoc, stringBody_escape, ih]
    rfl

theorem quote_append (s r : Text) : quote s ++ r = 34 :: (s.flatMap escape ++ 34 :: r) := by
  simp [quote]

/-! ## values -/

theorem skipWs_cons {c : Nat} (r : Text) (h : isWs c = false) : skipWs (c :: r) = c :: r := by
  simp [skipWs, h]

/-- the first code value of a printed value tells its kind -/
theorem numText_head (n : NumLit) : ∃ c t, numText n = c :: t ∧ isWs c = false ∧
    c ≠ 34 ∧ c ≠ 91 ∧ c ≠ 123 ∧ c ≠ 110 ∧ c ≠ 116 ∧ c ≠ 102 ∧ c ≠ 93 := by
  obtain ⟨neg, int, frac, exp⟩ := n
  cases neg with
  | true => exact ⟨45, _, rfl, by decide⟩
  | false =>
    obtain ⟨d, hd, _, _⟩ := natText_eq int
    have hc : ∀ x : Fin 10, isWs (digitChar x.val) = false ∧ digitChar x.val ≠ 34 ∧
        digitChar x.val ≠ 91 ∧ digitChar x.val ≠ 123 ∧ digitChar x.val ≠ 110 ∧
        digitChar x.val ≠ 116 ∧ digitChar x.val ≠ 102 ∧ digitChar x.val ≠ 93 := by decide
    refine ⟨digitChar d.head.val, d.tail.map (fun x => digitChar x.val) ++
      (fracText frac ++ expText exp), ?_, hc d.head⟩
    simp [numText, hd, Digits.text]

/-- no printed value starts with white space or a closing bracket -/
theorem print_head (j : Json) : ∃ c t, print j = c :: t ∧ isWs c = false ∧ c ≠ 93 := by
  match j with
  | .null => exact ⟨110, _, rfl, by decide, by decide⟩
  | .bool true => exact ⟨116, _, rfl, by decide, by decide⟩
  | .bool false => exact ⟨102, _, rfl, by decide, by decide⟩
  | .num n =>
    obtain ⟨c, t, h, hw, _, _, _, _, _, _, h93⟩ := numText_head n
    exact ⟨c, t, by rw [print, h], hw, h93⟩
  | .str s => exact ⟨34, _, rfl, by decide, by decide⟩
  | .arr [] => exact ⟨91, _, rfl, by decide, by decide⟩
  | .arr (x :: xs) => exact ⟨91, _, by rw [print], by decide, by decide⟩
  | .obj [] => exact ⟨123, _, rfl, by decide, by decide⟩
  | .obj ((k, x) :: ms) => exact ⟨123, _, by rw [print], by decide, by decide⟩

theorem numEnd_printItems (xs : List Json) (r : Text) : NumEnd (printItems xs ++ r) := by
  cases xs with
  | nil => exact numEnd_cons _ (by decide)
  | cons x xs =>
    rw [printItems]
    exact numEnd_cons _ (by decide)

theorem numEnd_printMembers (ms : List (Text × Json)) (r : Text) :
    NumEnd (printMembers ms ++ r) := by
  match ms with
  | [] => exact numEnd_cons _ (by decide)
  | (k, x) :: ms =>
    rw [printMembers]
    exact numEnd_cons _ (by decide)

mutual
theorem value_print : ∀ (j : Json) (n : Nat) (r : Text), (print j).length < n → NumEnd r →
    value n (print j ++ r) = some (j, r)
  | _, 0, _, h, _ => absurd h (by omega)
  | .null, n + 1, r, _, _ => rfl
  | .bool true, n + 1, r, _, _ => rfl
  | .bool false, n + 1, r, _, _ => rfl
  | .num x, n + 1, r, _, hr => by
    obtain ⟨c, t, hc, hw, h34, h91, h123, h110, h116, h102, _⟩ := numText_head x
    have hn := number_numText x hr
    rw [print, value]
    rw [hc, List.cons_append] at hn ⊢
    simp only [skipWs_cons _ hw, h34, h91, h123, h110, h116, h102, ↓reduceIte, hn, Option.map_some]
  | .str s, n + 1, r, _, _ => by
    rw [print, quote_append, value, skipWs_cons _ (by decide)]
    simp only [↓reduceIte, stringBody_quoted, Option.map_some]
  | .arr [], n + 1, r, _, _ => rfl
  | .arr (x :: xs), n + 1, r, h, _ => by
    rw [print, List.length_cons] at h
    have hi := items_print x xs n r (by omega)
    obtain ⟨c, t, hc, hw, h93⟩ := print_head x
    rw [print, List.cons_append, value, skipWs_cons _ (by decide)]
    rw [hc, List.cons_append, List.cons_append] at hi ⊢
    simp only [Nat.reduceEqDiff, ↓reduceIte, skipWs_cons _ hw, eat, Ne.symm h93, hi,
      Option.map_some]
  | .obj [], n + 1, r, _, _ => rfl
  | .obj ((k, x) :: ms), n + 1, r, h, _ => by
    rw [print, List.length_cons] at h
    have hm := members_print k x ms n r (by omega)
    rw [print, List.cons_append, value, skipWs_cons _ (by decide)]
    rw [List.append_assoc, quote_append] at hm ⊢
    simp only [Nat.reduceEqDiff, ↓reduceIte, skipWs_cons (c := 34) _ (by decide), eat, hm,
      Option.map_some]
theorem items_print : ∀ (x : Json) (xs : List Json) (n : Nat) (r : Text),
    (print x ++ printItems xs).length < n →
    items n (print x ++ printItems xs ++ r) = some (x :: xs, r)
  | _, _, 0, _, h => absurd h (by omega)
  | x, [], n + 1, r, h => by
    have hl : (print x).length < n := by
      simp only [List.length_append, printItems, List.length_cons, List.length_nil] at h
      omega
    have hv := value_print x n (printItems [] ++ r) hl (numEnd_printItems [] r)
    rw [items, List.append_assoc, hv]
    rfl
  | x, y :: ys, n + 1, r, h => by
    rw [printItems, List.length_append, List.length_cons] at h
    have hl : (print x).length < n := by omega
    have hv := value_print x n (printItems (y :: ys) ++ r) hl (numEnd_printItems (y :: ys) r)
    have hi := items_print y ys n r (by omega)
    rw [items, List.append_assoc, hv, Option.bind_some, printItems, List.cons_append]
    simp only [skipWs_cons (c := 44) _ (by decide), ↓reduceIte, hi, Option.map_some]
theorem members_print : ∀ (k : Text) (x : Json) (ms : List (Text × Json)) (n : Nat) (r : Text),
    (quote k ++ 58 :: (print x ++ printMembers ms)).length < n →
    members n (quote k ++ 58 :: (print x ++ printMembers ms) ++ r) = some ((k, x) :: ms, r)
  | _, _, _, 0, _, h => absurd h (by omega)
  | k, x, ms, n + 1, r, h => by
    rw [List.length_append, List.length_cons, List.length_append] at h
    have hl : (print x).length < n := by omega
    have hv := value_print x n (printMembers ms ++ r) hl (numEnd_printMembers ms r)
    rw [members, List.append_assoc, quote_append, skipWs_cons _ (by decide)]
    simp only [eat, ↓reduceIte, Option.bind_some, List.cons_append, stringBody_quoted,
      skipWs_cons (c := 58) _ (by decide), List.append_assoc, hv]
    match ms with
    | [] => rfl
    | (k', y) :: ms =>
      rw [printMembers, List.length_cons] at h
      have hm := members_print k' y ms n r (by omega)
      rw [printMembers, List.cons_append]
      simp only [skipWs_cons (c := 44) _ (by decide), ↓reduceIte, hm, Option.map_some]
end

/-- **Reading undoes printing.** -/
theorem parse_print (j : Json) : parse (print j) = some j := by
  have h := value_print j ((print j).length + 1) [] (by omega) numEnd_nil
  rw [List.append_nil] at h
  unfold parse
  rw [h]
  rfl

/-! ## printing and UTF-16 -/

mutual
/-- the same tree with every string and key taken through `f` -/
def map (f : Text → Text) : Json → Json
  | .null => .null
  | .bool b => .bool b
  | .num n => .num n
  | .str s => .str (f s)
  | .arr xs => .arr (mapItems f xs)
  | .obj ms => .obj (mapMembers f ms)
def mapItems (f : Text → Text) : List Json → List Json
  | [] => []
  | x :: xs => map f x :: mapItems f xs
def mapMembers (f : Text → Text) : List (Text × Json) → List (Text × Json)
  | [] => []
  | (k, x) :: ms => (f k, map f x) :: mapMembers f ms
end

theorem escape_ascii {c : Nat} (h : c < 0x80) : ∀ x ∈ escape c, x < 0x80 := by
  revert c
  decide

theorem escape_plain {c : Nat} (h : 0x80 ≤ c) : escape c = [c] := by
  have h34 : c ≠ 34 := by omega
  have h92 : c ≠ 92 := by omega
  have h8 : c ≠ 8 := by omega
  have h9 : c ≠ 9 := by omega
  have h10 : c ≠ 10 := by omega
  have h12 : c ≠ 12 := by omega
  have h13 : c ≠ 13 := by omega
  have h32 : ¬ c < 32 := by omega
  simp only [escape, h34, h92, h8, h9, h10, h12, h13, h32, ↓reduceIte]

theorem flatMap_escape_encode (s : Text) :
    (encode s).flatMap escape = encode (s.flatMap escape) := by
  induction s with
  | nil => rfl
  | cons c s ih =>
    rw [encode_cons, List.flatMap_append, ih, List.flatMap_cons, encode_append]
    congr 1
    by_cases h : c < 0x80
    · rw [encodePoint_bmp (by omega),
        encode_bmp fun x hx => lt_trans (escape_ascii h x hx) (by norm_num)]
      simp
    · rw [escape_plain (by omega)]
      have hb : ∀ x ∈ encodePoint c, 0x80 ≤ x := by
        intro x hx
        unfold encodePoint at hx
        split at hx
        · simp at hx; omega
        · simp at hx; omega
      have hp : (encodePoint c).flatMap escape = encodePoint c := by
        rw [List.flatMap_congr (g := fun x => [x]) fun x hx => escape_plain (hb x hx)]
        simp
      rw [hp]
      simp [encode]

theorem quote_encode (s : Text) : quote (encode s) = encode (quote s) := by
  have h34 : encodePoint 34 = [34] := rfl
  simp only [quote, flatMap_escape_encode, encode_cons, encode_append, h34, encode_nil,
    List.cons_append, List.nil_append]

theorem digitsText_ascii (d : Digits) : ∀ c ∈ Digits.text d, c < 0x80 := by
  intro c hc
  obtain ⟨x, _, rfl⟩ := List.mem_map.mp hc
  have := x.isLt
  show 48 + x.val < 0x80
  omega

theorem numText_ascii (n : NumLit) : ∀ c ∈ numText n, c < 0x80 := by
  obtain ⟨neg, int, frac, exp⟩ := n
  obtain ⟨d, hd, _, _⟩ := natText_eq int
  have hs : ∀ s : Option Bool, ∀ c ∈ signText s, c < 0x80 := by
    intro s
    match s with
    | none | some true | some false => decide
  intro c hc
  simp only [numText, hd, List.mem_append] at hc
  rcases hc with hc | hc | hc | hc
  · cases neg with
    | true => simp only [↓reduceIte, List.mem_singleton] at hc; omega
    | false => cases hc
  · exact digitsText_ascii d c hc
  · cases frac with
    | none => cases hc
    | some f =>
      rcases List.mem_cons.mp hc with rfl | hc
      · decide
      · exact digitsText_ascii f c hc
  · cases exp with
    | none => cases hc
    | some e =>
      rcases List.mem_cons.mp hc with rfl | hc
      · decide
      · rcases List.mem_append.mp hc with hc | hc
        · exact hs e.sign c hc
        · exact digitsText_ascii e.digits c hc

theorem encode_numText (n : NumLit) : encode (numText n) = numText n :=
  encode_bmp fun c hc => lt_trans (numText_ascii n c hc) (by norm_num)

mutual
/-- **Printing a tree of UTF-16 strings is printing the tree and encoding the text.** -/
theorem print_map_encode : ∀ j : Json, print (map encode j) = encode (print j)
  | .null => rfl
  | .bool true => rfl
  | .bool false => rfl
  | .num n => by rw [map, print, encode_numText]
  | .str s => by rw [map, print, print, quote_encode]
  | .arr [] => rfl
  | .arr (x :: xs) => by
    rw [map, mapItems, print, print, print_map_encode x, printItems_map_encode xs, encode_cons,
      encode_append]
    rfl
  | .obj [] => rfl
  | .obj ((k, x) :: ms) => by
    rw [map, mapMembers, print, print, print_map_encode x, printMembers_map_encode ms,
      quote_encode, encode_cons, encode_append, encode_cons, encode_append]
    rfl
theorem printItems_map_encode : ∀ xs : List Json,
    printItems (mapItems encode xs) = encode (printItems xs)
  | [] => rfl
  | x :: xs => by
    rw [mapItems, printItems, printItems, print_map_encode x, printItems_map_encode xs,
      encode_cons, encode_append]
    rfl
theorem printMembers_map_encode : ∀ ms : List (Text × Json),
    printMembers (mapMembers encode ms) = encode (printMembers ms)
  | [] => rfl
  | (k, x) :: ms => by
    rw [mapMembers, printMembers, printMembers, print_map_encode x, printMembers_map_encode ms,
      quote_encode, encode_cons, encode_append, encode_cons, encode_append]
    rfl
end

/-! ## trees of scalar values -/

mutual
def ScalarTree : Json → Prop
  | .str s => Scalars s
  | .arr xs => ScalarItems xs
  | .obj ms => ScalarMembers ms
  | .null | .bool _ | .num _ => True
def ScalarItems : List Json → Prop
  | [] => True
  | x :: xs => ScalarTree x ∧ ScalarItems xs
def ScalarMembers : List (Text × Json) → Prop
  | [] => True
  | (k, x) :: ms => Scalars k ∧ ScalarTree x ∧ ScalarMembers ms
end

theorem scalarMembers_iff {ms : List (Text × Json)} :
    ScalarMembers ms ↔ ∀ m ∈ ms, Scalars m.1 ∧ ScalarTree m.2 := by
  induction ms with
  | nil => simp [ScalarMembers]
  | cons m ms ih =>
    rw [List.forall_mem_cons, ← ih, and_assoc]
    exact Iff.rfl

theorem scalars_ascii {s : Text} (h : ∀ c ∈ s, c < 0x80) : Scalars s :=
  fun c hc => .inl (lt_trans (h c hc) (by norm_num))

theorem scalars_cons {c : Nat} {s : Text} (hc : c < 0x80) (hs : Scalars s) : Scalars (c :: s) :=
  List.forall_mem_cons.mpr ⟨.inl (lt_trans hc (by norm_num)), hs⟩

theorem scalars_quote {s : Text} (h : Scalars s) : Scalars (quote s) := by
  refine scalars_cons (by norm_num) (Scalars.append ?_ (scalars_cons (by norm_num) ?_))
  · intro u hu
    obtain ⟨c, hc, hu⟩ := List.mem_flatMap.mp hu
    by_cases hlt : c < 0x80
    · exact .inl (lt_trans (escape_ascii hlt u hu) (by norm_num))
    · rw [escape_plain (by omega)] at hu
      rw [List.mem_singleton.mp hu]
      exact h c hc
  · intro c hc
    cases hc

mutual
theorem scalars_print : ∀ j : Json, ScalarTree j → Scalars (print j)
  | .null, _ | .bool true, _ | .bool false, _ => by
    rw [print]
    decide
  | .num n, _ => scalars_ascii (numText_ascii n)
  | .str _, h => scalars_quote h
  | .arr [], _ => by decide
  | .arr (x :: xs), h =>
    scalars_cons (by norm_num) ((scalars_print x h.1).append (scalars_printItems xs h.2))
  | .obj [], _ => by decide
  | .obj ((k, x) :: ms), h => by
    rw [print]
    exact scalars_cons (by norm_num) ((scalars_quote h.1).append
      (scalars_cons (by norm_num) ((scalars_print x h.2.1).append (scalars_printMembers ms h.2.2))))
theorem scalars_printItems : ∀ xs : List Json, ScalarItems xs → Scalars (printItems xs)
  | [], _ => by decide
  | x :: xs, h =>
    scalars_cons (by norm_num) ((scalars_print x h.1).append (scalars_printItems xs h.2))
theorem scalars_printMembers : ∀ ms : List (Text × Json), ScalarMembers ms →
    Scalars (printMembers ms)
  | [], _ => by decide
  | (k, x) :: ms, h => by
    rw [printMembers]
    exact scalars_cons (by norm_num) ((scalars_quote h.1).append
      (scalars_cons (by norm_num) ((scalars_print x h.2.1).append (scalars_printMembers ms h.2.2))))
end

end Lib.Json
