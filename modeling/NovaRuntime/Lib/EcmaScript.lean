import NovaRuntime.Lib.JsonRoundTrip

/-!
# Call statements of ECMAScript

The part of the script grammar that a host writes when it calls a function of a script with literal
arguments.

* `stringChars`   the characters of a string literal, with all its escapes but the octal ones;
* `script`        reads a text that consists of call statements;
* `stringChars_quoted`   a text quoted the JSON way is a string literal, and its value is the text
                  in UTF-16;
* `script_text`   a printed call is read as that one call.
-/

namespace Lib.EcmaScript
open Json

/-! ## syntax -/

inductive Primary where
  | name (s : Text)
  | bool (b : Bool)
  | num (n : NumLit)
  | str (s : Text)

/-- a primary expression, perhaps after a minus sign -/
structure Arg where
  neg : Bool
  primary : Primary

structure Call where
  callee : Text
  args : List Arg

def isLetter (c : Nat) : Bool := (65 ≤ c && c ≤ 90) || (97 ≤ c && c ≤ 122)

/-- the ASCII characters that begin a name -/
def isNameStart (c : Nat) : Bool := isLetter c || c = 36 || c = 95

def isNamePart (c : Nat) : Bool := isNameStart c || isDigit c

def IsName (s : Text) : Prop := ∃ c t, s = c :: t ∧ isNameStart c = true ∧ ∀ d ∈ t, isNamePart d = true

/-! ## string literals -/

def isLineTerminator (c : Nat) : Bool := c = 10 || c = 13 || c = 0x2028 || c = 0x2029

/-- the character that a one-character escape stands for; any other stands for itself -/
def singleEscape (c : Nat) : Nat :=
  if c = 98 then 8
  else if c = 116 then 9
  else if c = 110 then 10
  else if c = 118 then 11
  else if c = 102 then 12
  else if c = 114 then 13
  else c

/-- the value of the digits up to a closing brace, which has to be a code point -/
def bracedHex : Nat → Text → Option (Nat × Text)
  | _, [] => none
  | n, c :: r =>
    if c = 125 then some (n, r)
    else (hexVal c).bind fun d => if 16 * n + d < 0x110000 then bracedHex (16 * n + d) r else none

/-- what an escape sequence adds to the value, and what follows it -/
def escapeSequence : Text → Option (Text × Text)
  | [] => none
  | 117 :: 123 :: d :: r =>
    (hexVal d).bind fun n => (bracedHex n r).map fun p => (encodePoint p.1, p.2)
  | 117 :: a :: b :: c :: d :: r => (hex4 a b c d).map fun n => ([n], r)
  | 120 :: a :: b :: r => (hexVal a).bind fun x => (hexVal b).map fun y => ([16 * x + y], r)
  | 13 :: 10 :: r => some ([], r)
  | c :: r =>
    if isLineTerminator c then some ([], r)
    else if c = 117 ∨ c = 120 then none
    else if c = 48 ∧ ¬ (r.head?.any isDigit) then some ([0], r)
    else if isDigit c then none
    else some (encodePoint (singleEscape c), r)

/-- The value of a string literal whose opening quote `q` was read, in code units, and what follows
it; `n` bounds the recursion. -/
def stringChars (q : Nat) : Nat → Text → Option (Text × Text)
  | 0, _ | _, [] => none
  | n + 1, c :: r =>
    if c = q then some ([], r)
    else if c = 92 then
      (escapeSequence r).bind fun e => (stringChars q n e.2).map fun p => (e.1 ++ p.1, p.2)
    else if c = 10 ∨ c = 13 then none
    else (stringChars q n r).map fun p => (encodePoint c ++ p.1, p.2)

/-! ## calls -/

def nameText (s : Text) : Text := s.takeWhile isNamePart

def afterName (s : Text) : Text := s.dropWhile isNamePart

/-- a literal or a name, and what follows it -/
def primary : Text → Option (Primary × Text)
  | [] => none
  | c :: r =>
    if c = 34 ∨ c = 39 then (stringChars c (r.length + 1) r).map fun p => (.str p.1, p.2)
    else if isNameStart c then
      let s := nameText (c :: r)
      some (if s = txt "true" then .bool true else if s = txt "false" then .bool false else .name s,
        afterName (c :: r))
    else if isDigit c then (number (c :: r)).bind fun p =>
      -- no name or digit may follow a number at once
      if p.2.head?.any isNamePart then none else some (.num p.1, p.2)
    else none

def arg (s : Text) : Option (Arg × Text) :=
  match skipWs s with
  | 45 :: r => (primary (skipWs r)).map fun p => (⟨true, p.1⟩, p.2)
  | s => (primary s).map fun p => (⟨false, p.1⟩, p.2)

/-- the arguments from one on, up to the closing parenthesis -/
def moreArgs : Nat → Text → Option (List Arg × Text)
  | 0, _ => none
  | n + 1, s => (arg s).bind fun a =>
    match skipWs a.2 with
    | 44 :: r => (moreArgs n r).map fun p => (a.1 :: p.1, p.2)
    | 41 :: r => some ([a.1], r)
    | _ => none

def args (s : Text) : Option (List Arg × Text) :=
  match skipWs s with
  | 41 :: r => some ([], r)
  | s => moreArgs (s.length + 1) s

/-- one call statement, up to its semicolon -/
def callStatement (s : Text) : Option (Call × Text) :=
  if s.head?.any isNameStart then
    match skipWs (afterName s) with
    | 40 :: r => (args r).bind fun p =>
      match skipWs p.2 with
      | 59 :: r => some (⟨nameText s, p.1⟩, r)
      | _ => none
    | _ => none
  else none

def statements : Nat → Text → Option (List Call)
  | 0, _ => none
  | n + 1, s =>
    match skipWs s with
    | [] => some []
    | s => (callStatement s).bind fun p => (statements n p.2).map (p.1 :: ·)

/-- a script of call statements; the value of a string literal is in code units -/
def script (s : Text) : Option (List Call) := statements (s.length + 1) s

/-! ## printing -/

def Primary.text : Primary → Text
  | .name s => s
  | .bool true => txt "true"
  | .bool false => txt "false"
  | .num n => numText n
  | .str s => quote s

def Arg.text (a : Arg) : Text := (if a.neg then [45] else []) ++ a.primary.text

def argsText : List Arg → Text
  | [] => [41]
  | [a] => a.text ++ [41]
  | a :: b :: as => a.text ++ (txt ", " ++ argsText (b :: as))

def Call.text (c : Call) : Text := c.callee ++ 40 :: (argsText c.args ++ [59])

/-- the strings of a call in UTF-16 -/
def Primary.encoded : Primary → Primary
  | .str s => .str (encode s)
  | p => p

def Arg.encoded (a : Arg) : Arg := ⟨a.neg, a.primary.encoded⟩

def Call.encoded (c : Call) : Call := ⟨c.callee, c.args.map Arg.encoded⟩

/-- Names are names and no words of the language, and a number has its sign in front. -/
def Primary.WellFormed : Primary → Prop
  | .name s => IsName s ∧ s ≠ txt "true" ∧ s ≠ txt "false"
  | .num n => n.neg = false
  | _ => True

def Call.WellFormed (c : Call) : Prop := IsName c.callee ∧ ∀ a ∈ c.args, a.primary.WellFormed

/-! ## reading what was printed -/

theorem escapeSequence_u {c : Nat} (h : c < 32) (r : Text) :
    escapeSequence (117 :: 48 :: 48 :: hexChar (c / 16) :: hexChar (c % 16) :: r) =
      some ([c], r) := by
  have hx : hex4 48 48 (hexChar (c / 16)) (hexChar (c % 16)) = some c := by
    have h0 : hexVal 48 = some 0 := rfl
    have h1 := hexVal_hexChar (c / 16) (by omega)
    have h2 := hexVal_hexChar (c % 16) (by omega)
    simp only [hex4, h0, h1, h2, Option.bind_eq_bind, Option.bind_some, Option.pure_def,
      Option.some.injEq]
    omega
  rw [escapeSequence.eq_def]
  simp only [hx, Option.map_some]

/-- One escaped character is one step of reading. -/
theorem stringChars_escape (n c : Nat) (r : Text) : stringChars 34 (n + 1) (escape c ++ r) =
    (stringChars 34 n r).map fun p => (encodePoint c ++ p.1, p.2) := by
  unfold escape
  by_cases h34 : c = 34
  · subst h34; rfl
  by_cases h92 : c = 92
  · subst h92; rfl
  by_cases h8 : c = 8
  · subst h8; rfl
  by_cases h9 : c = 9
  · subst h9; rfl
  by_cases h10 : c = 10
  · subst h10; rfl
  by_cases h12 : c = 12
  · subst h12; rfl
  by_cases h13 : c = 13
  · subst h13; rfl
  by_cases h32 : c < 32
  · have hu : txt "\\u00" = [92, 117, 48, 48] := by decide
    have hp : encodePoint c = [c] := encodePoint_bmp (by omega)
    simp only [h34, h92, h8, h9, h10, h12, h13, h32, ↓reduceIte, hu, List.cons_append,
      List.nil_append, stringChars, Nat.reduceEqDiff, escapeSequence_u h32, Option.bind_some, hp]
  · simp only [h34, h92, h8, h9, h10, h12, h13, h32, ↓reduceIte, List.cons_append,
      List.nil_append, stringChars, or_self]

/-- **A quoted text is a string literal**, whose value is the text in UTF-16. -/
theorem stringChars_quoted (s r : Text) {n : Nat} (h : s.length < n) :
    stringChars 34 n (s.flatMap escape ++ 34 :: r) = some (encode s, r) := by
  induction s generalizing n with
  | nil =>
    cases n with
    | zero => cases h
    | succ n => rfl
  | cons c s ih =>
    cases n with
    | zero => cases h
    | succ n =>
      rw [List.flatMap_cons, List.append_assoc, stringChars_escape, ih (Nat.lt_of_succ_lt_succ h)]
      rfl

/-- The text does not go on with a name or a number. -/
def TokenEnd (r : Text) : Prop := ∀ c ∈ r.head?, isNamePart c = false ∧ c ≠ 46

theorem tokenEnd_cons {c : Nat} (r : Text) (h : isNamePart c = false ∧ c ≠ 46) :
    TokenEnd (c :: r) := by
  intro d hd
  cases hd
  exact h

theorem TokenEnd.numEnd {r : Text} (h : TokenEnd r) : NumEnd r := by
  intro c hc
  obtain ⟨hpart, hdot⟩ := h c hc
  simp only [isNamePart, isNameStart, isLetter, Bool.or_eq_false_iff, Bool.and_eq_false_iff,
    decide_eq_false_iff_not] at hpart
  exact ⟨hpart.2, hdot, by omega, by omega⟩

theorem not_any {r : Text} (h : TokenEnd r) : ¬ (r.head?.any isNamePart) = true := by
  intro hany
  obtain ⟨c, hc, hpart⟩ := (Option.any_eq_true _ _).mp hany
  rw [(h c hc).1] at hpart
  cases hpart

theorem isNamePart_of_start {c : Nat} (h : isNameStart c = true) : isNamePart c = true := by
  simp [isNamePart, h]

def NameEnd (r : Text) : Prop := ∀ c ∈ r.head?, isNamePart c = false

theorem nameEnd_cons {c : Nat} (r : Text) (h : isNamePart c = false) : NameEnd (c :: r) := by
  intro d hd
  cases hd
  exact h

theorem name_end_append {s r : Text} (hs : IsName s) (hr : NameEnd r) :
    nameText (s ++ r) = s ∧ afterName (s ++ r) = r := by
  obtain ⟨c, t, rfl, hc, ht⟩ := hs
  have hall : ∀ d ∈ c :: t, isNamePart d = true :=
    List.forall_mem_cons.mpr ⟨isNamePart_of_start hc, ht⟩
  have hstop : r.takeWhile isNamePart = [] ∧ r.dropWhile isNamePart = r := by
    cases r with
    | nil => exact ⟨rfl, rfl⟩
    | cons d r =>
      have hd : isNamePart d = false := hr d rfl
      simp [hd]
  rw [nameText, afterName, List.takeWhile_append_of_pos hall, List.dropWhile_append_of_pos hall,
    hstop.1, hstop.2, List.append_nil]
  exact ⟨rfl, rfl⟩

theorem TokenEnd.nameEnd {r : Text} (h : TokenEnd r) : NameEnd r := fun c hc => (h c hc).1

theorem name_append {s r : Text} (hs : IsName s) (hr : TokenEnd r) :
    nameText (s ++ r) = s ∧ afterName (s ++ r) = r :=
  name_end_append hs hr.nameEnd

theorem isNameStart_not_quote {c : Nat} (h : isNameStart c = true) : ¬ (c = 34 ∨ c = 39) := by
  rintro (rfl | rfl) <;> revert h <;> decide

theorem digit_no_name {c : Nat} (h : isDigit c = true) :
    ¬ (c = 34 ∨ c = 39) ∧ isNameStart c = false := by
  simp only [isDigit, isNameStart, isLetter, Bool.and_eq_true, Bool.or_eq_false_iff,
    Bool.and_eq_false_iff, decide_eq_true_eq, decide_eq_false_iff_not] at h ⊢
  omega

theorem primary_name {s r : Text} (hs : IsName s) (hr : TokenEnd r) : primary (s ++ r) =
    some (if s = txt "true" then .bool true else if s = txt "false" then .bool false else .name s,
      r) := by
  obtain ⟨hname, hafter⟩ := name_append hs hr
  obtain ⟨c, t, rfl, hc, ht⟩ := hs
  rw [List.cons_append] at hname hafter ⊢
  simp only [primary, if_neg (isNameStart_not_quote hc), hc, ↓reduceIte, hname, hafter]

/-- a number without a sign begins with a digit -/
theorem numText_digit {n : NumLit} (h : n.neg = false) :
    ∃ c t, numText n = c :: t ∧ isDigit c = true := by
  obtain ⟨d, hd, -⟩ := natText_eq n.int
  have heq : numText n = Digits.text d ++ (fracText n.frac ++ expText n.exp) := by
    rw [numText, h, hd]
    rfl
  exact ⟨digitChar d.head.val, _, heq, isDigit_digitChar d.head⟩

theorem length_escaped (s : Text) : s.length ≤ (s.flatMap escape).length := by
  induction s with
  | nil => exact le_rfl
  | cons c s ih =>
    have hpos : 0 < (escape c).length := by
      unfold escape
      split_ifs <;> simp [txt]
    rw [List.flatMap_cons, List.length_append, List.length_cons]
    omega

/-- **A printed literal or name reads back**, when its token ends there. -/
theorem primary_text {p : Primary} (hp : p.WellFormed) {r : Text} (hr : TokenEnd r) :
    primary (p.text ++ r) = some (p.encoded, r) := by
  cases p with
  | name s =>
    obtain ⟨hs, htrue, hfalse⟩ := hp
    rw [Primary.text, primary_name hs hr, if_neg htrue, if_neg hfalse]
    rfl
  | bool b =>
    cases b with
    | true => exact primary_name ⟨116, txt "rue", by decide, by decide, by decide⟩ hr
    | false => exact primary_name ⟨102, txt "alse", by decide, by decide, by decide⟩ hr
  | num n =>
    have hread := number_numText n hr.numEnd
    obtain ⟨c, t, hc, hdigit⟩ := numText_digit hp
    obtain ⟨hquote, hname⟩ := digit_no_name hdigit
    rw [Primary.text]
    rw [hc, List.cons_append] at hread ⊢
    simp only [primary, if_neg hquote, hname, hdigit, hread, Bool.false_eq_true, ↓reduceIte,
      Option.bind_some, if_neg (not_any hr)]
    rfl
  | str s =>
    have hlen : s.length < (s.flatMap escape ++ 34 :: r).length + 1 := by
      have hle := length_escaped s
      rw [List.length_append]
      omega
    rw [Primary.text, quote_append, primary, if_pos (.inl rfl), stringChars_quoted s r hlen]
    rfl

theorem primary_head {p : Primary} (hp : p.WellFormed) :
    ∃ c t, p.text = c :: t ∧ isWs c = false ∧ c ≠ 45 ∧ c ≠ 41 := by
  have hstart : ∀ c, isNameStart c = true → isWs c = false ∧ c ≠ 45 ∧ c ≠ 41 := by
    intro c hc
    simp only [isNameStart, isLetter, Bool.or_eq_true, Bool.and_eq_true, decide_eq_true_eq] at hc
    simp only [isWs, Bool.or_eq_false_iff, decide_eq_false_iff_not]
    omega
  cases p with
  | name s =>
    obtain ⟨⟨c, t, rfl, hc, -⟩, -⟩ := hp
    exact ⟨c, t, rfl, hstart c hc⟩
  | bool b =>
    cases b with
    | true => exact ⟨116, txt "rue", by decide, by decide⟩
    | false => exact ⟨102, txt "alse", by decide, by decide⟩
  | num n =>
    obtain ⟨c, t, hc, hdigit⟩ := numText_digit hp
    refine ⟨c, t, hc, ?_⟩
    simp only [isDigit, Bool.and_eq_true, decide_eq_true_eq] at hdigit
    simp only [isWs, Bool.or_eq_false_iff, decide_eq_false_iff_not]
    omega
  | str s => exact ⟨34, _, rfl, by decide⟩

theorem skipWs_text {p : Primary} (hp : p.WellFormed) (r : Text) :
    skipWs (p.text ++ r) = p.text ++ r := by
  obtain ⟨c, t, hc, hws, -⟩ := primary_head hp
  rw [hc]
  exact skipWs_cons _ hws

theorem arg_text {a : Arg} (ha : a.primary.WellFormed) {r : Text} (hr : TokenEnd r) :
    arg (a.text ++ r) = some (a.encoded, r) := by
  obtain ⟨neg, p⟩ := a
  have hskip : skipWs (p.text ++ r) = p.text ++ r := skipWs_text ha r
  have hread : primary (p.text ++ r) = some (p.encoded, r) := primary_text ha hr
  cases neg with
  | true =>
    show arg (45 :: (p.text ++ r)) = _
    rw [arg, skipWs_cons _ (by decide)]
    show ((primary (skipWs (p.text ++ r))).map _) = _
    rw [hskip, hread]
    rfl
  | false =>
    obtain ⟨c, t, hc, -, hminus, -⟩ := primary_head ha
    show arg (p.text ++ r) = _
    rw [arg, hskip]
    rw [hc, List.cons_append] at hread ⊢
    split
    · next heq => exact absurd (List.cons.inj heq).1 hminus
    · rw [hread]
      rfl

theorem arg_head {a : Arg} (ha : a.primary.WellFormed) :
    ∃ c t, a.text = c :: t ∧ isWs c = false ∧ c ≠ 41 := by
  obtain ⟨neg, p⟩ := a
  cases neg with
  | true => exact ⟨45, p.text, rfl, by decide⟩
  | false =>
    obtain ⟨c, t, hc, hws, -, hclose⟩ := primary_head ha
    exact ⟨c, t, hc, hws, hclose⟩

theorem moreArgs_text {n : Nat} {a : Arg} {as : List Arg} (hn : as.length < n)
    (ha : ∀ x ∈ a :: as, x.primary.WellFormed) (r : Text) :
    moreArgs n (argsText (a :: as) ++ r) = some ((a :: as).map Arg.encoded, r) := by
  have hone := (List.forall_mem_cons.mp ha).1
  induction as generalizing n a with
  | nil =>
    cases n with
    | zero => cases hn
    | succ n =>
      have hread := arg_text hone (tokenEnd_cons r (c := 41) (by decide))
      rw [argsText, List.append_assoc, moreArgs]
      show (arg (a.text ++ 41 :: r)).bind _ = _
      rw [hread]
      rfl
  | cons b as ih =>
    cases n with
    | zero => cases hn
    | succ n =>
      have hrest := (List.forall_mem_cons.mp ha).2
      have hread := arg_text hone (r := 44 :: 32 :: (argsText (b :: as) ++ r))
        (tokenEnd_cons _ (by decide))
      have ih := ih (Nat.lt_of_succ_lt_succ hn) hrest (List.forall_mem_cons.mp hrest).1
      have hspace : ∀ s, moreArgs n (32 :: s) = moreArgs n s := by
        intro s
        cases n <;> rfl
      rw [argsText, List.append_assoc, moreArgs]
      show (arg (a.text ++ 44 :: 32 :: (argsText (b :: as) ++ r))).bind _ = _
      rw [hread]
      show ((moreArgs n (32 :: (argsText (b :: as) ++ r))).map _) = _
      rw [hspace, ih]
      rfl

theorem length_argsText (as : List Arg) : as.length ≤ (argsText as).length := by
  induction as with
  | nil => exact Nat.zero_le _
  | cons a as ih =>
    cases as with
    | nil => simp [argsText]
    | cons b as =>
      have hcomma : (txt ", ").length = 2 := by decide
      rw [argsText, List.length_append, List.length_append, List.length_cons]
      omega

theorem args_text {as : List Arg} (ha : ∀ a ∈ as, a.primary.WellFormed) (r : Text) :
    args (argsText as ++ r) = some (as.map Arg.encoded, r) := by
  cases as with
  | nil => rfl
  | cons a as =>
    have hlen : as.length < (argsText (a :: as) ++ r).length + 1 := by
      have hle := length_argsText (a :: as)
      rw [List.length_cons] at hle
      rw [List.length_append]
      omega
    have hread := moreArgs_text hlen ha r
    obtain ⟨c, t, hc, hws, hclose⟩ := arg_head (List.forall_mem_cons.mp ha).1
    have hhead : ∃ t', argsText (a :: as) ++ r = c :: t' := by
      cases as <;> simp [argsText, hc]
    obtain ⟨t', ht'⟩ := hhead
    rw [ht'] at hread ⊢
    rw [args, skipWs_cons _ hws]
    split
    · next heq => exact absurd (List.cons.inj heq).1 hclose
    · exact hread

theorem callStatement_text {c : Call} (hc : c.WellFormed) (r : Text) :
    callStatement (c.text ++ r) = some (c.encoded, r) := by
  obtain ⟨callee, as⟩ := c
  obtain ⟨hname, has⟩ := hc
  have hopen : TokenEnd (40 :: (argsText as ++ 59 :: r)) := tokenEnd_cons _ (by decide)
  obtain ⟨htext, hafter⟩ := name_append hname hopen
  have hstart : ((callee ++ 40 :: (argsText as ++ 59 :: r)).head?.any isNameStart) = true := by
    obtain ⟨d, t, rfl, hd, -⟩ := hname
    simpa using hd
  have hsplit : Call.text ⟨callee, as⟩ ++ r = callee ++ 40 :: (argsText as ++ 59 :: r) := by
    simp [Call.text]
  rw [hsplit, callStatement, if_pos hstart, hafter, htext, skipWs_cons _ (by decide)]
  simp only [args_text has (59 :: r), Option.bind_some]
  rfl

/-- **A printed call statement is a script of that one call.** -/
theorem script_text {c : Call} (hc : c.WellFormed) : script c.text = some [c.encoded] := by
  have hread := callStatement_text hc []
  rw [List.append_nil] at hread
  have hhead : ∃ d t, c.text = d :: t ∧ isWs d = false := by
    obtain ⟨callee, as⟩ := c
    obtain ⟨d, t, rfl, hd, -⟩ := hc.1
    refine ⟨d, _, rfl, ?_⟩
    simp only [isNameStart, isLetter, Bool.or_eq_true, Bool.and_eq_true, decide_eq_true_eq] at hd
    simp only [isWs, Bool.or_eq_false_iff, decide_eq_false_iff_not]
    omega
  obtain ⟨d, t, ht, hws⟩ := hhead
  rw [ht] at hread
  rw [script, ht, statements, skipWs_cons _ hws]
  simp only [hread, Option.bind_some]
  rfl

end Lib.EcmaScript
