set_option autoImplicit false

/-!
# Binary numbers of 53 bits

Sizes and times are computed with numbers `m * 2 ^ e` in which `m` has at most 53 bits. What has no
such form is rounded to the nearest number that has one, and half way to the one with an even `m`.
All of this is done exactly, with fractions of natural numbers.
-/

namespace FunLang.Number

/-- A quotient rounded to the nearest number, and half way to the even one. -/
def roundDiv (num den : Nat) : Nat :=
  let q := num / den
  let r := num % den
  if 2 * r < den then q else if den < 2 * r then q + 1 else q + q % 2

theorem roundDiv_mul (q : Nat) {den : Nat} (h : 0 < den) : roundDiv (q * den) den = q := by
  simp [roundDiv, Nat.mul_div_cancel q h, h]

/-- The number `mantissa * 2 ^ exponent`. -/
structure Binary64 where
  mantissa : Nat
  exponent : Int
deriving DecidableEq, Repr, Inhabited

namespace Binary64

/-- The fraction `num / den` divided by `2 ^ e`, as numerator and denominator. -/
def scaled (num den : Nat) (e : Int) : Nat × Nat :=
  (num * Nat.pow 2 (-e).toNat, den * Nat.pow 2 e.toNat)

/-- The exponent of the last place of a fraction: the least one, not below -1074, that leaves at most
53 bits before it. -/
def place (num den : Nat) : Int :=
  let e := max (-1074) ((num.log2 : Int) - den.log2 - 53)
  let (n, d) := scaled num den e
  if n / d < Nat.pow 2 53 then e else e + 1

/-- The number nearest to a fraction, unless that is too large. -/
def ofRatio? (num den : Nat) : Option Binary64 :=
  let e := place num den
  let (n, d) := scaled num den e
  let m := roundDiv n d
  if Nat.pow 2 1024 ≤ m * Nat.pow 2 e.toNat then none else some ⟨m, e⟩

def zero : Binary64 := ⟨0, 0⟩

/-- A number as a fraction. -/
def ratio (x : Binary64) : Nat × Nat := scaled x.mantissa 1 (-x.exponent)

/-- The product of two numbers, unless that is too large. -/
def mul? (x y : Binary64) : Option Binary64 :=
  ofRatio? (x.ratio.1 * y.ratio.1) (x.ratio.2 * y.ratio.2)

/-- The quotient of two numbers, unless that is too large. -/
def div? (x y : Binary64) : Option Binary64 :=
  ofRatio? (x.ratio.1 * y.ratio.2) (x.ratio.2 * y.ratio.1)

/-- The whole part of a number. -/
def floor (x : Binary64) : Nat := x.ratio.1 / x.ratio.2

end Binary64

end FunLang.Number
