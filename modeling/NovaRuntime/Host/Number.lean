import Mathlib.Data.Rat.Floor
import Mathlib.Data.Int.Log
import NovaRuntime.Lib.JsonRoundTrip

/-!
# Numbers that cross the host boundary

JavaScript numbers, Rust's `f64`, `Duration` and `Instant`, as far as the worker computes with
them.

* `F64`          an IEEE double by its value; the two zeros are one value, since neither `==`, a
                 `Map` key nor JSON tells them apart;
* `roundF64`     the double nearest to a rational number, ties to even;
* `F64.eq`       the comparison `==`, under which NaN is not itself;
* `F64.intoI64`  nova's `Number::into_i64`: truncated, saturating, NaN as zero;
* `F64.toUint32` the conversion of an argument that is a `u32`;
* `numberToString`   `Number::toString` of a finite double, as a JSON token;
* `fromSecsF64`, `addDuration`   `Duration::from_secs_f64` and `Instant + Duration`; `none` is a
                 panic.

A `Duration` is its nanoseconds, an `Instant` the nanoseconds since the clock's origin.
-/

namespace NovaRuntime
open Lib

inductive F64 where
  | nan
  | inf (neg : Bool)
  | fin (q : ℚ)
  deriving DecidableEq

/-- the nearest integer, a half to the even one -/
def roundHalfEven (q : ℚ) : Int :=
  if q - q.floor < 1 / 2 then q.floor
  else if 1 / 2 < q - q.floor then q.floor + 1
  else if q.floor % 2 = 0 then q.floor else q.floor + 1

/-- the exponent `e` with `2 ^ e ≤ |q| < 2 ^ (e + 1)` -/
def log2 (q : ℚ) : Int :=
  let e : Int := (Nat.log2 q.num.natAbs : Int) - (Nat.log2 q.den : Int)
  if (2 : ℚ) ^ e ≤ |q| then e else e - 1

def roundF64 (q : ℚ) : F64 :=
  if q.den = 1 ∧ q.num.natAbs < 2 ^ 53 then .fin q
  else
    let unit : ℚ := (2 : ℚ) ^ (max (log2 q - 52) (-1074))
    let r : ℚ := roundHalfEven (q / unit) * unit
    if (2 : ℚ) ^ (1024 : Int) ≤ |r| then .inf (decide (q < 0)) else .fin r

namespace F64

def ofNat (n : Nat) : F64 := .fin n

def eq : F64 → F64 → Bool
  | nan, _ | _, nan => false
  | x, y => decide (x = y)

/-- toward zero -/
def trunc (q : ℚ) : Int := if 0 ≤ q then q.floor else q.ceil

def intoI64 : F64 → Int
  | nan => 0
  | inf false => 2 ^ 63 - 1
  | inf true => -2 ^ 63
  | fin q => max (-2 ^ 63) (min (2 ^ 63 - 1) (trunc q))

def toUint32 : F64 → UInt32
  | fin q => .ofNat (trunc q % 2 ^ 32).toNat
  | _ => 0

theorem eq_iff {x y : F64} : eq x y = true ↔ x = y ∧ x ≠ nan := by
  cases x <;> cases y <;> simp [eq]

theorem ofNat_inj {m n : Nat} : ofNat m = ofNat n ↔ m = n := by
  simp [ofNat]

theorem toUint32_ofNat (n : Nat) : (ofNat n).toUint32 = UInt32.ofNat n := by
  have htrunc : trunc (n : ℚ) = n := by
    rw [trunc, if_pos (Nat.cast_nonneg n)]
    exact Rat.floor_intCast n
  have hmod : ((n : Int) % 2 ^ 32).toNat = n % 2 ^ 32 := by omega
  rw [ofNat, toUint32, htrunc, hmod]
  exact UInt32.ofNat_mod_size

theorem eq_ofNat {m : Nat} {y : F64} : eq (ofNat m) y = true ↔ y = ofNat m := by
  rw [eq_iff]
  constructor
  · exact fun h => h.1.symm
  · rintro rfl
    exact ⟨rfl, by simp [ofNat]⟩

end F64

/-! ## decimal text -/

/-- the value a number token denotes -/
def NumLit.toRat (n : NumLit) : ℚ :=
  let frac : ℚ := match n.frac with
    | none => 0
    | some d => (Json.natOf (d.head :: d.tail) : ℚ) / 10 ^ (d.tail.length + 1)
  let exp : Int := match n.exp with
    | none => 0
    | some e =>
      let x : Int := Json.natOf (e.digits.head :: e.digits.tail)
      if e.sign = some true then -x else x
  (if n.neg then -1 else 1) * ((n.int : ℚ) + frac) * (10 : ℚ) ^ exp

/-- the double a number token denotes -/
def numberOf (n : NumLit) : F64 := roundF64 (NumLit.toRat n)

theorem numberOf_ofInt {i : Int} (h : i.natAbs < 2 ^ 53) : numberOf (NumLit.ofInt i) = .fin i := by
  have hsign : (if i < 0 then (-1 : ℚ) else 1) * (i.natAbs : ℚ) = i := by
    rcases lt_or_ge i 0 with hneg | hpos
    · rw [if_pos hneg, neg_one_mul, Nat.cast_natAbs, abs_of_neg hneg, Int.cast_neg, neg_neg]
    · rw [if_neg (not_lt.mpr hpos), one_mul, Nat.cast_natAbs, abs_of_nonneg hpos]
  have hrat : NumLit.toRat (NumLit.ofInt i) = (i : ℚ) := by
    simp only [NumLit.toRat, NumLit.ofInt, decide_eq_true_eq, add_zero, zpow_zero, mul_one]
    exact hsign
  rw [numberOf, hrat, roundF64, if_pos]
  simpa using h

/-- the integers next to `y`, the nearer one first -/
def neighbours (y : ℚ) : List Nat :=
  let near := (roundHalfEven y).natAbs
  [near, if (near : ℚ) ≤ y then near + 1 else near - 1]

/-- the shortest decimal `s × 10 ^ (n - k)` with `k` digits that rounds to `x`, as `(s, n, k)`, and of
two the nearer one; `n` is the position of the decimal point -/
def shortest (x : ℚ) : Nat × Int × Nat :=
  let n : Int := Int.log 10 x + 1
  let scaled (k : Nat) : ℚ := x * (10 : ℚ) ^ ((k : Int) - n)
  let digits (k : Nat) : Option (Nat × Nat) :=
    ((neighbours (scaled k)).find? fun s : Nat =>
      roundF64 ((s : ℚ) * (10 : ℚ) ^ (n - (k : Int))) = .fin x).map fun s => (s, k)
  let (s, k) := ((List.range' 1 17).findSome? digits).getD ((roundHalfEven (scaled 17)).natAbs, 17)
  -- rounding up to a power of ten moves the point
  if s = 10 ^ k then (10 ^ (k - 1), n + 1, k) else (s, n, k)

def digitsOf (n : Nat) : Digits :=
  match Json.natDigits n with
  | [] => ⟨0, []⟩
  | d :: ds => ⟨d, ds⟩

/-- `Number::toString` of a finite double; the digits of an integer below 2 ^ 53 are the shortest -/
def numberToString (q : ℚ) : NumLit :=
  if q.den = 1 ∧ q.num.natAbs < 2 ^ 53 then NumLit.ofInt q.num
  else
    let (s, n, k) := shortest |q|
    let neg := decide (q < 0)
    if k ≤ n ∧ n ≤ 21 then ⟨neg, s * 10 ^ (n - k).toNat, none, none⟩
    else if 0 < n ∧ n ≤ 21 then
      ⟨neg, s / 10 ^ (k - n.toNat), some (padded (k - n.toNat) (s % 10 ^ (k - n.toNat))), none⟩
    else if -6 < n ∧ n ≤ 0 then ⟨neg, 0, some (padded (k + n.natAbs) s), none⟩
    else
      let e : ExpLit := ⟨some (decide (n - 1 < 0)), digitsOf (n - 1).natAbs⟩
      if k = 1 then ⟨neg, s, none, some e⟩
      else ⟨neg, s / 10 ^ (k - 1), some (padded (k - 1) (s % 10 ^ (k - 1))), some e⟩
where
  /-- the digits of `n` after leading zeros, `width` in all -/
  padded (width n : Nat) : Digits :=
    match List.replicate (width - (Json.natDigits n).length) 0 ++ Json.natDigits n with
    | [] => ⟨0, []⟩
    | d :: ds => ⟨d, ds⟩

/-! ## time -/

/-- `Duration::from_millis` -/
def fromMillis (ms : Nat) : Nat := ms * 10 ^ 6

/-- `Duration::from_secs_f64`, which panics on what a `Duration` cannot hold -/
def fromSecsF64 : F64 → Option Nat
  | .fin q =>
    if 0 ≤ q ∧ roundHalfEven (q * 10 ^ 9) < 2 ^ 64 * 10 ^ 9 then
      some (roundHalfEven (q * 10 ^ 9)).toNat
    else none
  | _ => none

/-- `Instant + Duration`, which panics past the platform's signed 64-bit seconds -/
def addDuration (at_ d : Nat) : Option Nat :=
  if at_ + d < 2 ^ 63 * 10 ^ 9 then some (at_ + d) else none

theorem addDuration_eq {a d t : Nat} (h : addDuration a d = some t) : t = a + d := by
  unfold addDuration at h
  split at h
  · exact (Option.some.inj h).symm
  · cases h

end NovaRuntime
