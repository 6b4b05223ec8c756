import NovaRuntime.Lib.EcmaScript

/-!
# Expressions of ECMAScript

The part of the expression grammar that a host writes when it declares data: literals, object
literals, names with the members after them, and calls of these.

* `Expr`      syntax trees; strings and property names are in code units;
* `expr`      reads an expression and gives what follows it; `expressionScript` reads a script of
              expression statements;
* `protoTwice`   the early error of an object literal that names `__proto__` twice;
* `Reads`, `ReadsArgs`, `ReadsMembers`   a text is read as this, whatever follows it;
* `reads_call`, `reads_object`, …   one rule for each production.
-/

namespace Lib.EcmaScript
open Json

/-! ## syntax -/

inductive Expr where
  | null
  | bool (b : Bool)
  | str (s : Text)
  /-- a name, and the members after it -/
  | ref (name : Text) (path : List Text)
  | call (name : Text) (path : List Text) (args : List Expr)
  | object (ms : List (Text × Expr))

def reserved : List Text :=
  ["await", "break", "case", "catch", "class", "const", "continue", "debugger", "default", "delete",
    "do", "else", "enum", "export", "extends", "false", "finally", "for", "function", "if",
    "import", "in", "instanceof", "let", "new", "null", "return", "static", "super", "switch", "this",
    "throw", "true", "try", "typeof", "var", "void", "while", "with", "yield"].map txt

/-- the members after a name, and what follows them -/
def dotted : Nat → Text → List Text × Text
  | 0, s => ([], s)
  | n + 1, s =>
    match skipWs s with
    | 46 :: r =>
      if (skipWs r).head?.any isNameStart then
        (nameText (skipWs r) :: (dotted n (afterName (skipWs r))).1,
          (dotted n (afterName (skipWs r))).2)
      else ([], s)
    | _ => ([], s)

/-- a property name in an object literal, and what follows it -/
def memberKey (s : Text) : Option (Text × Text) :=
  match skipWs s with
  | [] => none
  | c :: r =>
    if c = 34 ∨ c = 39 then stringChars c (r.length + 1) r
    else if isNameStart c then some (nameText (c :: r), afterName (c :: r))
    else none

mutual
/-- an expression, and what follows it; the number bounds the recursion -/
def expr : Nat → Text → Option (Expr × Text)
  | 0, _ => none
  | n + 1, s =>
    match skipWs s with
    | [] => none
    | c :: r =>
      if c = 34 ∨ c = 39 then (stringChars c (r.length + 1) r).map fun p => (.str p.1, p.2)
      else if c = 123 then
        match skipWs r with
        | 125 :: r => some (.object [], r)
        | _ => (members n r).map fun p => (.object p.1, p.2)
      else if isNameStart c then
        let name := nameText (c :: r)
        let rest := afterName (c :: r)
        if name = txt "true" then some (.bool true, rest)
        else if name = txt "false" then some (.bool false, rest)
        else if name = txt "null" then some (.null, rest)
        else if reserved.contains name then none
        else afterPath n name (dotted rest.length rest).1 (dotted rest.length rest).2
      else none
/-- a name with its members, which is called if arguments follow -/
def afterPath : Nat → Text → List Text → Text → Option (Expr × Text)
  | 0, _, _, _ => none
  | n + 1, name, path, s =>
    match skipWs s with
    | 40 :: r =>
      match skipWs r with
      | 41 :: r => some (.call name path [], r)
      | _ => (exprArgs n r).map fun p => (.call name path p.1, p.2)
    | _ => some (.ref name path, s)
/-- the arguments from one on, up to the closing parenthesis -/
def exprArgs : Nat → Text → Option (List Expr × Text)
  | 0, _ => none
  | n + 1, s => (expr n s).bind fun a =>
    match skipWs a.2 with
    | 44 :: r => (exprArgs n r).map fun p => (a.1 :: p.1, p.2)
    | 41 :: r => some ([a.1], r)
    | _ => none
/-- the members from one on, up to the closing brace -/
def members : Nat → Text → Option (List (Text × Expr) × Text)
  | 0, _ => none
  | n + 1, s => (memberKey s).bind fun k =>
    match skipWs k.2 with
    | 58 :: r => (expr n r).bind fun v =>
      match skipWs v.2 with
      | 44 :: r =>
        match skipWs r with
        | 125 :: r => some ([(k.1, v.1)], r)
        | _ => (members n r).map fun p => ((k.1, v.1) :: p.1, p.2)
      | 125 :: r => some ([(k.1, v.1)], r)
      | _ => none
    | _ => none
end

/-! ## early errors -/

mutual
/-- an object literal in this expression names `__proto__` twice -/
def protoTwice : Expr → Bool
  | .null | .bool _ | .str _ | .ref _ _ => false
  | .call _ _ as => protoTwiceArgs as
  | .object ms => 1 < (ms.filter fun m => m.1 = txt "__proto__").length || protoTwiceMembers ms
def protoTwiceArgs : List Expr → Bool
  | [] => false
  | a :: as => protoTwice a || protoTwiceArgs as
def protoTwiceMembers : List (Text × Expr) → Bool
  | [] => false
  | m :: ms => protoTwice m.2 || protoTwiceMembers ms
end

/-- Expression statements.  One that begins with a brace would be a block. -/
def expressions : Nat → Text → Option (List Expr)
  | 0, _ => none
  | n + 1, s =>
    match skipWs s with
    | [] => some []
    | 123 :: _ => none
    | s => (expr (s.length + 1) s).bind fun p =>
      match skipWs p.2 with
      | 59 :: r => (expressions n r).map (p.1 :: ·)
      | _ => none

/-- a script of expression statements -/
def expressionScript (s : Text) : Option (List Expr) :=
  (expressions (s.length + 1) s).bind fun es => if es.any protoTwice then none else some es

/-! ## reading names and keys -/

theorem isWs_of_start {c : Nat} (h : isNameStart c = true) : isWs c = false := by
  simp only [isNameStart, isLetter, Bool.or_eq_true, Bool.and_eq_true, decide_eq_true_eq] at h
  simp only [isWs, Bool.or_eq_false_iff, decide_eq_false_iff_not]
  omega

/-- the members after a name as text -/
def pathText (path : List Text) : Text := path.flatMap (46 :: ·)

theorem pathText_cons (name : Text) (path : List Text) :
    pathText (name :: path) = 46 :: (name ++ pathText path) := rfl

theorem nameEnd_pathText (path : List Text) {r : Text} (hr : NameEnd r) :
    NameEnd (pathText path ++ r) := by
  cases path with
  | nil => exact hr
  | cons name path => exact nameEnd_cons _ (by decide)

theorem dotted_pathText {path : List Text} {r : Text} {n : Nat} (hp : ∀ name ∈ path, IsName name)
    (hr : NameEnd r) (hdot : ∀ t, skipWs r ≠ 46 :: t) (hn : path.length ≤ n) :
    dotted n (pathText path ++ r) = (path, r) := by
  induction path generalizing n with
  | nil =>
    cases n with
    | zero => rfl
    | succ n =>
      rw [dotted]
      split
      · next t ht => exact absurd ht (hdot t)
      · rfl
  | cons name path ih =>
    obtain ⟨hname, hpath⟩ := List.forall_mem_cons.mp hp
    cases n with
    | zero => exact absurd hn (Nat.not_succ_le_zero _)
    | succ n =>
      obtain ⟨htext, hafter⟩ := name_end_append hname (nameEnd_pathText path hr)
      have hskip : skipWs (name ++ (pathText path ++ r)) = name ++ (pathText path ++ r) := by
        obtain ⟨c, t, rfl, hc, -⟩ := hname
        exact skipWs_cons _ (isWs_of_start hc)
      have hstart : (name ++ (pathText path ++ r)).head?.any isNameStart = true := by
        obtain ⟨c, t, rfl, hc, -⟩ := hname
        exact hc
      have hhead : skipWs (46 :: (name ++ (pathText path ++ r))) =
          46 :: (name ++ (pathText path ++ r)) := skipWs_cons _ (by decide)
      rw [pathText_cons, List.cons_append, List.append_assoc, dotted, hhead]
      simp only [hskip, hstart, ↓reduceIte, htext, hafter, ih hpath (Nat.le_of_succ_le_succ hn)]

/-- The text is read as this property name, before a colon. -/
def ReadsKey (s key : Text) : Prop := ∀ r, memberKey (s ++ 58 :: r) = some (key, 58 :: r)

theorem readsKey_quote (s : Text) : ReadsKey (quote s) (encode s) := by
  intro r
  have hskip : skipWs (quote s ++ 58 :: r) = 34 :: (s.flatMap escape ++ 34 :: 58 :: r) := by
    rw [quote_append]
    exact skipWs_cons _ (by decide)
  rw [memberKey, hskip]
  show stringChars 34 _ _ = _
  refine stringChars_quoted s _ ?_
  have hlen := length_escaped s
  rw [List.length_append]
  omega

theorem readsKey_name {s : Text} (hs : IsName s) : ReadsKey s s := by
  intro r
  obtain ⟨htext, hafter⟩ := name_end_append hs (nameEnd_cons (c := 58) r (by decide))
  obtain ⟨c, t, rfl, hc, -⟩ := hs
  rw [memberKey, List.cons_append, skipWs_cons _ (isWs_of_start hc)]
  dsimp only
  rw [if_neg (isNameStart_not_quote hc), if_pos hc]
  exact congrArg some (Prod.ext htext hafter)

theorem readsKey_ws {s key : Text} {c : Nat} (hc : isWs c = true) (h : ReadsKey s key) :
    ReadsKey (c :: s) key := by
  intro r
  have hskip : skipWs (c :: (s ++ 58 :: r)) = skipWs (s ++ 58 :: r) := by rw [skipWs, if_pos hc]
  rw [List.cons_append, memberKey, hskip, ← memberKey]
  exact h r

/-! ## reading expressions -/

/-- what may follow an expression -/
def ExprEnd (r : Text) : Prop :=
  NameEnd r ∧ ∃ c t, skipWs r = c :: t ∧ (c = 44 ∨ c = 41 ∨ c = 125 ∨ c = 59)

theorem exprEnd_cons {c : Nat} (r : Text) (hc : c = 44 ∨ c = 41 ∨ c = 125 ∨ c = 59) :
    ExprEnd (c :: r) := by
  refine ⟨nameEnd_cons r ?_, c, r, skipWs_cons r ?_, hc⟩
  · rcases hc with rfl | rfl | rfl | rfl <;> decide
  · rcases hc with rfl | rfl | rfl | rfl <;> decide

theorem exprEnd_ws {c : Nat} {r : Text} (hc : isWs c = true) (h : ExprEnd r) : ExprEnd (c :: r) := by
  obtain ⟨-, d, t, hskip, hd⟩ := h
  refine ⟨nameEnd_cons r ?_, d, t, by rw [skipWs, if_pos hc, hskip], hd⟩
  simp only [isWs, Bool.or_eq_true, decide_eq_true_eq] at hc
  rcases hc with ((rfl | rfl) | rfl) | rfl <;> decide

/-- The text is read as this expression, before anything that may follow one. -/
def Reads (s : Text) (e : Expr) : Prop :=
  ∀ n r, s.length < n → ExprEnd r → expr n (s ++ r) = some (e, r)

/-- The text, with its closing parenthesis, is read as these arguments. -/
def ReadsArgs (s : Text) (as : List Expr) : Prop :=
  ∀ n r, s.length < n → exprArgs n (s ++ r) = some (as, r)

/-- The text, with its closing brace, is read as these members. -/
def ReadsMembers (s : Text) (ms : List (Text × Expr)) : Prop :=
  ∀ n r, s.length < n → members n (s ++ r) = some (ms, r)

theorem expr_ws {n c : Nat} {s : Text} (hc : isWs c = true) : expr n (c :: s) = expr n s := by
  cases n with
  | zero => rfl
  | succ n => rw [expr, expr, skipWs, if_pos hc]

theorem reads_ws {s : Text} {e : Expr} {c : Nat} (hc : isWs c = true) (h : Reads s e) :
    Reads (c :: s) e := by
  intro n r hn hr
  rw [List.cons_append, expr_ws hc]
  exact h n r (Nat.lt_of_succ_lt hn) hr

theorem reads_quote (s : Text) : Reads (quote s) (.str (encode s)) := by
  intro n r hn hr
  cases n with
  | zero => cases hn
  | succ n =>
    have hlen := length_escaped s
    have hlong : s.length < (s.flatMap escape ++ 34 :: r).length + 1 := by
      rw [List.length_append]
      omega
    rw [quote_append, expr, skipWs_cons _ (by decide)]
    dsimp only
    rw [if_pos (.inl rfl), stringChars_quoted s r hlong]
    rfl

theorem stringChars_plain {q : Nat} (s r : Text) {n : Nat} (h : s.length < n)
    (hs : ∀ c ∈ s, c ≠ q ∧ c ≠ 92 ∧ c ≠ 10 ∧ c ≠ 13) :
    stringChars q n (s ++ q :: r) = some (encode s, r) := by
  induction s generalizing n with
  | nil =>
    cases n with
    | zero => cases h
    | succ n => exact if_pos rfl
  | cons c s ih =>
    obtain ⟨⟨hq, hescape, hlf, hcr⟩, hs⟩ := List.forall_mem_cons.mp hs
    cases n with
    | zero => cases h
    | succ n =>
      rw [List.cons_append, stringChars, if_neg hq, if_neg hescape, if_neg (by omega),
        ih (Nat.lt_of_succ_lt_succ h) hs]
      rfl

/-- a literal in single quotes with nothing to escape -/
theorem reads_single {s : Text} (hs : ∀ c ∈ s, c ≠ 39 ∧ c ≠ 92 ∧ c ≠ 10 ∧ c ≠ 13) :
    Reads (39 :: (s ++ [39])) (.str (encode s)) := by
  intro n r hn hr
  cases n with
  | zero => cases hn
  | succ n =>
    have hlong : s.length < (s ++ 39 :: r).length + 1 := by
      rw [List.length_append]
      omega
    rw [List.cons_append, List.append_assoc, List.singleton_append, expr, skipWs_cons _ (by decide)]
    dsimp only
    rw [if_pos (.inr rfl), stringChars_plain s r hlong hs]
    rfl

/-- a name that is not reserved, and the names after it -/
structure IsPath (name : Text) (path : List Text) : Prop where
  isName : IsName name
  free : name ∉ reserved
  isNames : ∀ s ∈ path, IsName s

theorem length_pathText (path : List Text) : path.length ≤ (pathText path).length := by
  induction path with
  | nil => exact Nat.le_refl 0
  | cons name path ih =>
    rw [pathText_cons, List.length_cons, List.length_cons, List.length_append]
    omega

theorem expr_path {name r : Text} {path : List Text} (h : IsPath name path) (n : Nat)
    (hr : NameEnd r) (hdot : ∀ t, skipWs r ≠ 46 :: t) :
    expr (n + 1) (name ++ (pathText path ++ r)) = afterPath n name path r := by
  have hnot : name ≠ txt "true" ∧ name ≠ txt "false" ∧ name ≠ txt "null" := by
    refine ⟨?_, ?_, ?_⟩ <;>
    · rintro rfl
      exact h.free (by decide)
  obtain ⟨htext, hafter⟩ := name_end_append h.isName (nameEnd_pathText path hr)
  have hdotted : dotted (pathText path ++ r).length (pathText path ++ r) = (path, r) := by
    refine dotted_pathText h.isNames hr hdot ?_
    have hlen := length_pathText path
    rw [List.length_append]
    omega
  obtain ⟨c, t, heq, hc, -⟩ := h.isName
  have hbrace : c ≠ 123 := by
    rintro rfl
    revert hc
    decide
  have hskip : skipWs (name ++ (pathText path ++ r)) = c :: (t ++ (pathText path ++ r)) := by
    rw [heq]
    exact skipWs_cons _ (isWs_of_start hc)
  rw [heq, List.cons_append] at htext hafter
  have hfree : ¬ reserved.contains name = true := by
    rw [List.contains_iff_mem]
    exact h.free
  rw [expr, hskip]
  simp only [if_neg (isNameStart_not_quote hc), if_neg hbrace, hc, ↓reduceIte, htext, hafter,
    ← heq, hnot, if_neg hfree, hdotted]

theorem length_pos_of_isName {s : Text} (h : IsName s) : 0 < s.length := by
  obtain ⟨c, t, rfl, -⟩ := h
  exact Nat.succ_pos _

theorem reads_ref {name : Text} {path : List Text} (h : IsPath name path) :
    Reads (name ++ pathText path) (.ref name path) := by
  intro n r hn hr
  have hpos := length_pos_of_isName h.isName
  rw [List.length_append] at hn
  obtain ⟨n, rfl⟩ : ∃ m, n = m + 2 := ⟨n - 2, by omega⟩
  obtain ⟨hname, c, t, hskip, hc⟩ := hr
  rw [List.append_assoc, expr_path h _ hname fun t' ht' => ?_, afterPath, hskip]
  · split
    · next heq =>
      cases heq
      omega
    · rfl
  · rw [hskip] at ht'
    cases ht'
    omega

/-- Arguments do not begin with a closing parenthesis. -/
theorem exprArgs_close {n : Nat} {s t : Text} (h : skipWs s = 41 :: t) : exprArgs n s = none := by
  cases n with
  | zero => rfl
  | succ n =>
    cases n with
    | zero => rfl
    | succ n =>
      rw [exprArgs, expr, h]
      rfl

theorem reads_call {name s : Text} {path : List Text} {as : List Expr} (h : IsPath name path)
    (ha : ReadsArgs s as) : Reads (name ++ (pathText path ++ 40 :: s)) (.call name path as) := by
  intro n r hn hr
  have hpos := length_pos_of_isName h.isName
  rw [List.length_append, List.length_append, List.length_cons] at hn
  obtain ⟨n, rfl⟩ : ∃ m, n = m + 2 := ⟨n - 2, by omega⟩
  have hargs := ha n r (by omega)
  have hskip : skipWs (40 :: (s ++ r)) = 40 :: (s ++ r) := skipWs_cons _ (by decide)
  have hdot : ∀ t, skipWs (40 :: (s ++ r)) ≠ 46 :: t := by
    intro t ht
    rw [hskip] at ht
    cases ht
  rw [List.append_assoc, List.append_assoc, List.cons_append,
    expr_path h _ (nameEnd_cons _ (by decide)) hdot, afterPath, hskip]
  simp only
  split
  · next hclose =>
    rw [exprArgs_close hclose] at hargs
    cases hargs
  · rw [hargs]
    rfl

theorem reads_bool (b : Bool) : Reads (if b then txt "true" else txt "false") (.bool b) := by
  intro n r hn hr
  cases n with
  | zero => cases hn
  | succ n =>
    cases b with
    | true =>
      obtain ⟨htext, hafter⟩ := name_end_append (s := txt "true") ⟨116, txt "rue", by decide⟩ hr.1
      have hskip : skipWs (txt "true" ++ r) = 116 :: (txt "rue" ++ r) := skipWs_cons _ (by decide)
      have hcons : 116 :: (txt "rue" ++ r) = txt "true" ++ r := rfl
      rw [if_pos rfl, expr, hskip]
      simp only [if_neg (isNameStart_not_quote (c := 116) (by decide)), hcons, htext, hafter,
        ↓reduceIte]
      rfl
    | false =>
      obtain ⟨htext, hafter⟩ := name_end_append (s := txt "false") ⟨102, txt "alse", by decide⟩ hr.1
      have hskip : skipWs (txt "false" ++ r) = 102 :: (txt "alse" ++ r) := skipWs_cons _ (by decide)
      have hcons : 102 :: (txt "alse" ++ r) = txt "false" ++ r := rfl
      rw [if_neg (by decide), expr, hskip]
      simp only [if_neg (isNameStart_not_quote (c := 102) (by decide)), hcons, htext, hafter,
        ↓reduceIte]
      rfl

/-! ## reading lists -/

theorem readsArgs_one {s : Text} {a : Expr} (h : Reads s a) : ReadsArgs (s ++ [41]) [a] := by
  intro n r hn
  rw [List.length_append] at hn
  cases n with
  | zero => cases hn
  | succ n =>
    have hend : ExprEnd (41 :: r) := exprEnd_cons r (by decide)
    rw [exprArgs, List.append_assoc, List.singleton_append,
      h n _ (Nat.lt_of_succ_lt_succ hn) hend, Option.bind_some, skipWs_cons _ (by decide)]
    rfl

theorem readsArgs_cons {s s' : Text} {a : Expr} {as : List Expr} (h : Reads s a)
    (has : ReadsArgs s' as) : ReadsArgs (s ++ 44 :: s') (a :: as) := by
  intro n r hn
  rw [List.length_append, List.length_cons] at hn
  cases n with
  | zero => cases hn
  | succ n =>
    have hend : ExprEnd (44 :: (s' ++ r)) := exprEnd_cons _ (by decide)
    rw [exprArgs, List.append_assoc, List.cons_append, h n _ (by omega) hend, Option.bind_some,
      skipWs_cons _ (by decide)]
    show (exprArgs n (s' ++ r)).map _ = _
    rw [has n r (by omega)]
    rfl

theorem members_close {n : Nat} {s t : Text} (h : skipWs s = 125 :: t) : members n s = none := by
  cases n with
  | zero => rfl
  | succ n =>
    rw [members, memberKey, h]
    rfl

theorem skipWs_close {w : Text} (hw : ∀ c ∈ w, isWs c = true) (r : Text) :
    skipWs (w ++ 125 :: r) = 125 :: r ∧ ExprEnd (w ++ 125 :: r) := by
  induction w with
  | nil => exact ⟨skipWs_cons r (by decide), exprEnd_cons r (by decide)⟩
  | cons c w ih =>
    obtain ⟨hc, hw⟩ := List.forall_mem_cons.mp hw
    obtain ⟨hskip, hend⟩ := ih hw
    refine ⟨?_, exprEnd_ws hc hend⟩
    rw [List.cons_append, skipWs, if_pos hc, hskip]

theorem readsMembers_one {k key s w : Text} {v : Expr} (hk : ReadsKey k key) (hv : Reads s v)
    (hw : ∀ c ∈ w, isWs c = true) : ReadsMembers (k ++ 58 :: (s ++ (w ++ [125]))) [(key, v)] := by
  intro n r hn
  rw [List.length_append, List.length_cons, List.length_append] at hn
  cases n with
  | zero => cases hn
  | succ n =>
    obtain ⟨hskip, hend⟩ := skipWs_close hw r
    rw [members, List.append_assoc, List.cons_append, hk, Option.bind_some, skipWs_cons _ (by decide)]
    show (expr n _).bind _ = _
    rw [List.append_assoc, List.append_assoc, List.singleton_append, hv n _ (by omega) hend,
      Option.bind_some, hskip]
    rfl

theorem readsMembers_cons {k key s s' : Text} {v : Expr} {ms : List (Text × Expr)}
    (hk : ReadsKey k key) (hv : Reads s v) (hms : ReadsMembers s' ms) :
    ReadsMembers (k ++ 58 :: (s ++ 44 :: s')) ((key, v) :: ms) := by
  intro n r hn
  rw [List.length_append, List.length_cons, List.length_append, List.length_cons] at hn
  cases n with
  | zero => cases hn
  | succ n =>
    have hend : ExprEnd (44 :: (s' ++ r)) := exprEnd_cons _ (by decide)
    have hrest := hms n r (by omega)
    rw [members, List.append_assoc, List.cons_append, hk, Option.bind_some, skipWs_cons _ (by decide)]
    show (expr n _).bind _ = _
    rw [List.append_assoc, List.cons_append, hv n _ (by omega) hend, Option.bind_some,
      skipWs_cons _ (by decide)]
    simp only
    split
    · next hclose =>
      rw [members_close hclose] at hrest
      cases hrest
    · rw [hrest]
      rfl

theorem reads_object {s : Text} {ms : List (Text × Expr)} (h : ReadsMembers s ms) :
    Reads (123 :: s) (.object ms) := by
  intro n r hn hr
  rw [List.length_cons] at hn
  cases n with
  | zero => cases hn
  | succ n =>
    have hrest := h n r (Nat.lt_of_succ_lt_succ hn)
    rw [List.cons_append, expr, skipWs_cons _ (by decide)]
    dsimp only
    rw [if_neg (by decide), if_pos rfl]
    split
    · next hclose =>
      rw [members_close hclose] at hrest
      cases hrest
    · rw [hrest]
      rfl

theorem reads_empty : Reads (txt "\x7b\x7d") (.object []) := by
  intro n r hn hr
  cases n with
  | zero => cases hn
  | succ n => rfl

/-! ## scripts -/

theorem protoTwiceMembers_false {ms : List (Text × Expr)} (h : ∀ m ∈ ms, protoTwice m.2 = false) :
    protoTwiceMembers ms = false := by
  induction ms with
  | nil => rfl
  | cons m ms ih =>
    obtain ⟨hm, hms⟩ := List.forall_mem_cons.mp h
    rw [protoTwiceMembers, hm, ih hms]
    rfl

/-- a literal whose values hold no such literal -/
theorem protoTwice_object {ms : List (Text × Expr)} (h : ∀ m ∈ ms, protoTwice m.2 = false) :
    protoTwice (.object ms) = decide (1 < ms.countP fun m => m.1 = txt "__proto__") := by
  rw [protoTwice, protoTwiceMembers_false h, Bool.or_false, List.countP_eq_length_filter]

theorem expressionScript_one {s : Text} {e : Expr} (h : Reads s e)
    (hs : ∃ c t, s = c :: t ∧ isNameStart c = true) :
    expressionScript (s ++ [59]) = if protoTwice e then none else some [e] := by
  obtain ⟨c, t, heq, hc⟩ := hs
  have hskip : skipWs (s ++ [59]) = s ++ [59] := by
    rw [heq]
    exact skipWs_cons _ (isWs_of_start hc)
  have hbrace : ∀ r, s ++ [59] ≠ 123 :: r := by
    rintro r hr
    rw [heq] at hr
    obtain ⟨rfl, -⟩ := List.cons.inj hr
    revert hc
    decide
  have hread := h ((s ++ [59]).length + 1) [59] (by rw [List.length_append]; omega)
    (exprEnd_cons [] (by decide))
  have hone : expressions ((s ++ [59]).length + 1) (s ++ [59]) = some [e] := by
    rw [expressions, hskip]
    split
    · next hnil => simp at hnil
    · next r hr => exact absurd hr (hbrace r)
    · rw [hread, Option.bind_some, List.length_append]
      rfl
  rw [expressionScript, hone, Option.bind_some, List.any_cons, List.any_nil, Bool.or_false]

end Lib.EcmaScript
