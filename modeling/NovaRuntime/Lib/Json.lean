import NovaRuntime.Lib.Text
import Mathlib.Data.Nat.Digits.Defs

/-!
# JSON: syntax trees, the compact printer and a reader

The grammar of RFC 8259 over code values, so that one definition serves a text of scalar values
and a text of UTF-16 code units.

* `NumLit`   a number token; every value of the type is well formed;
* `Json`     a syntax tree (members of an object in text order, keys not yet merged);
* `print`    the tree without white space, strings escaped by `quote`;
* `parse`    the tree of a whole text, or nothing when the text is not JSON.  An escape `\uXXXX`
             gives the code value `XXXX`; what a surrogate means is left to the reader's caller.
-/

namespace Lib

instance tenNeZero : NeZero 10 := ⟨by decide⟩

/-- at least one decimal digit -/
structure Digits where
  head : Fin 10
  tail : List (Fin 10)
  deriving DecidableEq

structure ExpLit where
  /-- the sign written before the digits, if there is one: `true` for a minus -/
  sign : Option Bool
  digits : Digits
  deriving DecidableEq

/-- a JSON number token: integer part, fraction and exponent -/
structure NumLit where
  neg : Bool
  int : Nat
  frac : Option Digits
  exp : Option ExpLit
  deriving DecidableEq

/-- the token of an integer -/
def NumLit.ofInt (i : Int) : NumLit := ⟨decide (i < 0), i.natAbs, none, none⟩

inductive Json where
  | null
  | bool (b : Bool)
  | num (n : NumLit)
  | str (s : Text)
  | arr (xs : List Json)
  | obj (ms : List (Text × Json))

namespace Json

/-! ## printing -/

def digitChar (d : Nat) : Nat := 48 + d

def isDigit (c : Nat) : Bool := 48 ≤ c && c ≤ 57

def natText (n : Nat) : Text :=
  if n = 0 then [48] else (Nat.digits 10 n).reverse.map digitChar

def Digits.text (d : Digits) : Text := (d.head :: d.tail).map fun x => digitChar x.val

def signText : Option Bool → Text
  | none => []
  | some false => txt "+"
  | some true => txt "-"

def fracText : Option Digits → Text
  | none => []
  | some d => 46 :: Digits.text d

def expText : Option ExpLit → Text
  | none => []
  | some e => 101 :: (signText e.sign ++ Digits.text e.digits)

def numText (n : NumLit) : Text :=
  (if n.neg then [45] else []) ++ (natText n.int ++ (fracText n.frac ++ expText n.exp))

def hexChar (d : Nat) : Nat := if d < 10 then 48 + d else 87 + d

/-- one code value inside a string literal -/
def escape (c : Nat) : Text :=
  if c = 34 then txt "\\\""
  else if c = 92 then txt "\\\\"
  else if c = 8 then txt "\\b"
  else if c = 9 then txt "\\t"
  else if c = 10 then txt "\\n"
  else if c = 12 then txt "\\f"
  else if c = 13 then txt "\\r"
  else if c < 32 then txt "\\u00" ++ [hexChar (c / 16), hexChar (c % 16)]
  else [c]

def quote (s : Text) : Text := 34 :: (s.flatMap escape ++ [34])

mutual
def print : Json → Text
  | .null => txt "null"
  | .bool true => txt "true"
  | .bool false => txt "false"
  | .num n => numText n
  | .str s => quote s
  | .arr [] => txt "[]"
  | .arr (x :: xs) => 91 :: (print x ++ printItems xs)
  | .obj [] => txt "\x7b\x7d"
  | .obj ((k, x) :: ms) => 123 :: (quote k ++ 58 :: (print x ++ printMembers ms))
/-- the further elements of an array, up to its closing bracket -/
def printItems : List Json → Text
  | [] => [93]
  | x :: xs => 44 :: (print x ++ printItems xs)
/-- the further members of an object, up to its closing brace -/
def printMembers : List (Text × Json) → Text
  | [] => [125]
  | (k, x) :: ms => 44 :: (quote k ++ 58 :: (print x ++ printMembers ms))
end

/-! ## reading -/

def isWs (c : Nat) : Bool := c = 32 || c = 9 || c = 10 || c = 13

def skipWs : Text → Text
  | [] => []
  | c :: r => if isWs c then skipWs r else c :: r

/-- what follows `p`, if the text starts with it -/
def eat : Text → Text → Option Text
  | [], s => some s
  | _ :: _, [] => none
  | a :: p, c :: s => if a = c then eat p s else none

/-- the digits a text starts with, and what follows them -/
def takeDigits : Text → List (Fin 10) × Text
  | [] => ([], [])
  | c :: r =>
    if isDigit c then ((Fin.ofNat 10 (c - 48)) :: (takeDigits r).1, (takeDigits r).2)
    else ([], c :: r)

def takeDigits1 (s : Text) : Option (Digits × Text) :=
  match takeDigits s with
  | ([], _) => none
  | (d :: ds, r) => some (⟨d, ds⟩, r)

def natOf (ds : List (Fin 10)) : Nat := ds.foldl (fun n d => 10 * n + d.val) 0

/-- the integer part: a zero alone, or digits that do not start with one -/
def intPart (s : Text) : Option (Nat × Text) :=
  match takeDigits1 s with
  | none => none
  | some (d, r) =>
    if d.head = 0 then some (0, d.tail.map (fun x => digitChar x.val) ++ r)
    else some (natOf (d.head :: d.tail), r)

def fracPart (s : Text) : Option (Option Digits × Text) :=
  match s with
  | 46 :: r => (takeDigits1 r).map fun p => (some p.1, p.2)
  | r => some (none, r)

def expSign : Text → Option Bool × Text
  | [] => (none, [])
  | c :: r => if c = 43 then (some false, r) else if c = 45 then (some true, r) else (none, c :: r)

def expPart (s : Text) : Option (Option ExpLit × Text) :=
  match s with
  | [] => some (none, [])
  | c :: r =>
    if c = 101 ∨ c = 69 then
      (takeDigits1 (expSign r).2).map fun p => (some ⟨(expSign r).1, p.1⟩, p.2)
    else some (none, c :: r)

def numSign : Text → Bool × Text
  | [] => (false, [])
  | c :: r => if c = 45 then (true, r) else (false, c :: r)

def number (s : Text) : Option (NumLit × Text) :=
  (intPart (numSign s).2).bind fun i => (fracPart i.2).bind fun f =>
    (expPart f.2).map fun e => (⟨(numSign s).1, i.1, f.1, e.1⟩, e.2)

def hexVal (c : Nat) : Option Nat :=
  if 48 ≤ c ∧ c ≤ 57 then some (c - 48)
  else if 97 ≤ c ∧ c ≤ 102 then some (c - 87)
  else if 65 ≤ c ∧ c ≤ 70 then some (c - 55)
  else none

def hex4 (a b c d : Nat) : Option Nat := do
  let a ← hexVal a
  let b ← hexVal b
  let c ← hexVal c
  let d ← hexVal d
  return 4096 * a + 256 * b + 16 * c + d

/-- the code value a one-character escape stands for -/
def unescape (e : Nat) : Option Nat :=
  if e = 34 ∨ e = 92 ∨ e = 47 then some e
  else if e = 98 then some 8
  else if e = 102 then some 12
  else if e = 110 then some 10
  else if e = 114 then some 13
  else if e = 116 then some 9
  else none

def push (c : Nat) (p : Text × Text) : Text × Text := (c :: p.1, p.2)

/-- the code values of a string literal whose opening quote was read, and what follows it -/
def stringBody : Text → Option (Text × Text)
  | [] => none
  | c :: r =>
    if c = 34 then some ([], r)
    else if c = 92 then
      match r with
      | 117 :: h₁ :: h₂ :: h₃ :: h₄ :: r' =>
        (hex4 h₁ h₂ h₃ h₄).bind fun x => (stringBody r').map (push x)
      | e :: r' => (unescape e).bind fun x => (stringBody r').map (push x)
      | [] => none
    else if c < 32 then none
    else (stringBody r).map (push c)

mutual
/-- a value after white space, and what follows it; `n` bounds the recursion -/
def value : Nat → Text → Option (Json × Text)
  | 0, _ => none
  | n + 1, s =>
    match skipWs s with
    | [] => none
    | c :: r =>
      if c = 34 then (stringBody r).map fun p => (.str p.1, p.2)
      else if c = 91 then
        match eat [93] (skipWs r) with
        | some r' => some (.arr [], r')
        | none => (items n r).map fun p => (.arr p.1, p.2)
      else if c = 123 then
        match eat [125] (skipWs r) with
        | some r' => some (.obj [], r')
        | none => (members n r).map fun p => (.obj p.1, p.2)
      else if c = 110 then (eat (txt "ull") r).map fun r' => (.null, r')
      else if c = 116 then (eat (txt "rue") r).map fun r' => (.bool true, r')
      else if c = 102 then (eat (txt "alse") r).map fun r' => (.bool false, r')
      else (number (c :: r)).map fun p => (.num p.1, p.2)
/-- one or more elements, up to the closing bracket of their array -/
def items : Nat → Text → Option (List Json × Text)
  | 0, _ => none
  | n + 1, s =>
    (value n s).bind fun p =>
      match skipWs p.2 with
      | [] => none
      | c :: r =>
        if c = 44 then (items n r).map fun q => (p.1 :: q.1, q.2)
        else if c = 93 then some ([p.1], r)
        else none
/-- one or more members, up to the closing brace of their object -/
def members : Nat → Text → Option (List (Text × Json) × Text)
  | 0, _ => none
  | n + 1, s =>
    (eat [34] (skipWs s)).bind fun r => (stringBody r).bind fun k =>
      (eat [58] (skipWs k.2)).bind fun r => (value n r).bind fun p =>
        match skipWs p.2 with
        | [] => none
        | c :: r =>
          if c = 44 then (members n r).map fun q => ((k.1, p.1) :: q.1, q.2)
          else if c = 125 then some ([(k.1, p.1)], r)
          else none
end

def parse (s : Text) : Option Json :=
  (value (s.length + 1) s).bind fun p => if skipWs p.2 = [] then some p.1 else none

end Json
end Lib
