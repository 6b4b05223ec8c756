import NovaRuntime.Lib.JsonRoundTrip

/-!
# Base64

The standard alphabet, with padding (RFC 4648, section 4).

* `digit`, `digitValue`   a character of the alphabet and its six bits;
* `encode`          three bytes in four characters, the last group padded;
* `decode`          the reader, which takes padded text whose unused bits are zero;
* `decode_encode`   bytes come back.
-/

namespace Lib
namespace Base64

def pad : Nat := 61

def digit (n : Nat) : Nat :=
  if n < 26 then 65 + n
  else if n < 52 then 71 + n
  else if n < 62 then n - 4
  else if n = 62 then 43
  else 47

def digitValue (c : Nat) : Option Nat :=
  if 65 ≤ c ∧ c ≤ 90 then some (c - 65)
  else if 97 ≤ c ∧ c ≤ 122 then some (c - 71)
  else if 48 ≤ c ∧ c ≤ 57 then some (c + 4)
  else if c = 43 then some 62
  else if c = 47 then some 63
  else none

theorem digitValue_digit : ∀ n < 64, digitValue (digit n) = some n := by decide
theorem digit_ne_pad : ∀ n < 64, digit n ≠ pad := by decide
theorem digit_ascii : ∀ n < 64, digit n < 0x80 := by decide

/-- the six-bit groups of up to three bytes -/
def first (a : UInt8) : Nat := a.toNat / 4
def second (a b : UInt8) : Nat := a.toNat % 4 * 16 + b.toNat / 16
def third (b c : UInt8) : Nat := b.toNat % 16 * 4 + c.toNat / 64
def fourth (c : UInt8) : Nat := c.toNat % 64

def encode : List UInt8 → Text
  | [] => []
  | [a] => [digit (first a), digit (second a 0), pad, pad]
  | [a, b] => [digit (first a), digit (second a b), digit (third b 0), pad]
  | a :: b :: c :: r =>
    digit (first a) :: digit (second a b) :: digit (third b c) :: digit (fourth c) :: encode r

/-- the bytes of two, three or four groups; what is left of the last one has to be zero -/
def oneByte (p q : Nat) : Option (List UInt8) := do
  let x ← digitValue p
  let y ← digitValue q
  if y % 16 = 0 then some [UInt8.ofNat (4 * x + y / 16)] else none

def twoBytes (p q r : Nat) : Option (List UInt8) := do
  let x ← digitValue p
  let y ← digitValue q
  let z ← digitValue r
  if z % 4 = 0 then some [UInt8.ofNat (4 * x + y / 16), UInt8.ofNat (16 * (y % 16) + z / 4)] else none

def threeBytes (p q r s : Nat) : Option (List UInt8) := do
  let x ← digitValue p
  let y ← digitValue q
  let z ← digitValue r
  let w ← digitValue s
  return [UInt8.ofNat (4 * x + y / 16), UInt8.ofNat (16 * (y % 16) + z / 4),
    UInt8.ofNat (64 * (z % 4) + w)]

def decode : Text → Option (List UInt8)
  | [] => some []
  | p :: q :: r :: s :: rest =>
    if s = pad then
      if rest ≠ [] then none else if r = pad then oneByte p q else twoBytes p q r
    else (threeBytes p q r s).bind fun bytes => (decode rest).map (bytes ++ ·)
  | _ => none

section
variable (a b c : UInt8)

theorem first_lt : first a < 64 := by
  have h := a.toNat_lt
  unfold first
  omega

theorem second_lt : second a b < 64 := by
  have h := b.toNat_lt
  unfold second
  omega

theorem third_lt : third b c < 64 := by
  have h := c.toNat_lt
  unfold third
  omega

theorem fourth_lt : fourth c < 64 := Nat.mod_lt _ (by decide)

theorem byte_first : UInt8.ofNat (4 * first a + second a b / 16) = a := by
  have h := b.toNat_lt
  have heq : 4 * first a + second a b / 16 = a.toNat := by
    unfold first second
    omega
  rw [heq, UInt8.ofNat_toNat]

theorem byte_second : UInt8.ofNat (16 * (second a b % 16) + third b c / 4) = b := by
  have h := b.toNat_lt
  have h' := c.toNat_lt
  have heq : 16 * (second a b % 16) + third b c / 4 = b.toNat := by
    unfold second third
    omega
  rw [heq, UInt8.ofNat_toNat]

theorem byte_third : UInt8.ofNat (64 * (third b c % 4) + fourth c) = c := by
  have h := c.toNat_lt
  have heq : 64 * (third b c % 4) + fourth c = c.toNat := by
    unfold third fourth
    omega
  rw [heq, UInt8.ofNat_toNat]

theorem oneByte_digits : oneByte (digit (first a)) (digit (second a 0)) = some [a] := by
  have hzero : second a 0 % 16 = 0 := by
    unfold second
    simp
  simp only [oneByte, digitValue_digit _ (first_lt a), digitValue_digit _ (second_lt a 0),
    Option.bind_eq_bind, Option.bind_some, if_pos hzero, byte_first]

theorem twoBytes_digits :
    twoBytes (digit (first a)) (digit (second a b)) (digit (third b 0)) = some [a, b] := by
  have hzero : third b 0 % 4 = 0 := by
    unfold third
    simp
  simp only [twoBytes, digitValue_digit _ (first_lt a), digitValue_digit _ (second_lt a b),
    digitValue_digit _ (third_lt b 0), Option.bind_eq_bind, Option.bind_some, if_pos hzero,
    byte_first, byte_second]

theorem threeBytes_digits : threeBytes (digit (first a)) (digit (second a b)) (digit (third b c))
    (digit (fourth c)) = some [a, b, c] := by
  simp only [threeBytes, digitValue_digit _ (first_lt a), digitValue_digit _ (second_lt a b),
    digitValue_digit _ (third_lt b c), digitValue_digit _ (fourth_lt c), Option.bind_eq_bind,
    Option.bind_some, Option.pure_def, byte_first, byte_second, byte_third]

end

theorem decode_encode : ∀ bytes : List UInt8, decode (encode bytes) = some bytes
  | [] => rfl
  | [a] => by
    rw [encode, decode, if_pos rfl, if_neg (by simp), if_pos rfl, oneByte_digits]
  | [a, b] => by
    rw [encode, decode, if_pos rfl, if_neg (by simp), if_neg (digit_ne_pad _ (third_lt b 0)),
      twoBytes_digits]
  | a :: b :: c :: r => by
    rw [encode, decode, if_neg (digit_ne_pad _ (fourth_lt c)), threeBytes_digits, decode_encode r]
    rfl

theorem encode_ascii : ∀ bytes : List UInt8, ∀ x ∈ encode bytes, x < 0x80
  | [] => by simp [encode]
  | [a] => by
    simp only [encode, List.forall_mem_cons]
    exact ⟨digit_ascii _ (first_lt a), digit_ascii _ (second_lt a 0), by decide, by decide, by simp⟩
  | [a, b] => by
    simp only [encode, List.forall_mem_cons]
    exact ⟨digit_ascii _ (first_lt a), digit_ascii _ (second_lt a b), digit_ascii _ (third_lt b 0),
      by decide, by simp⟩
  | a :: b :: c :: r => by
    simp only [encode, List.forall_mem_cons]
    exact ⟨digit_ascii _ (first_lt a), digit_ascii _ (second_lt a b), digit_ascii _ (third_lt b c),
      digit_ascii _ (fourth_lt c), encode_ascii r⟩

end Base64
end Lib
