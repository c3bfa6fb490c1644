/-
Finite numbers of the binary64 format, and the one nearest to a decimal.

The bits of a magnitude, read as a number, are its *pattern*.  Patterns and magnitudes
have the same order, and one step in the pattern is one step in the last place, so
rounding may carry into the next power of two without a case of its own: the pattern of
`m * 2 ^ q` is `(q + 1074) * 2 ^ 52 + m`, for the normal numbers, where `m` has 53 bits,
and for the subnormal ones, where `q` is as small as it can be, alike.  Patterns from
`patternEnd` on mean no finite number.

Rounding is done on an exact quotient of natural numbers, to the nearest neighbour and
to the even one of two that are equally near.  A decimal with a long exponent is not
worked out: its size alone says whether it is too large, or rounds to zero.
-/
import YamlDecode.Number.Numeral

namespace YamlDecode

/-- What one step of the exponent is worth in a pattern: the 52nd power of two. -/
def Double.exponentUnit : Nat := 0x10000000000000

/-- The first pattern that means no finite number. -/
def Double.patternEnd : Nat := 2047 * Double.exponentUnit

/-- A finite number of the binary64 format; zero has both signs. -/
structure Double where
  negative : Bool
  pattern : Nat
  finite : pattern < Double.patternEnd
  deriving DecidableEq, Repr

namespace Double

/-- The 64 bits of the number. -/
def bits (d : Double) : Nat := (if d.negative then signedEnd else 0) + d.pattern

/-- The quotient rounded to the nearest integer, half-way cases to the even one. -/
def roundDiv (num den : Nat) : Nat :=
  let quotient := num / den
  let rest := 2 * (num % den)
  if rest < den then quotient
  else if den < rest then quotient + 1
  else quotient + quotient % 2

/-- The power of two that a positive quotient reaches, rounded down. -/
def quotientLog2 (num den : Nat) : Int :=
  let guess := (num.log2 : Int) - den.log2
  let reached :=
    if 0 ≤ guess then den <<< guess.toNat ≤ num else den ≤ num <<< (-guess).toNat
  if reached then guess else guess - 1

/-- The pattern nearest to a positive quotient, as if there were no largest one. -/
def nearestPattern (num den : Nat) : Nat :=
  let normal := quotientLog2 num den - 52
  let place := if -1074 ≤ normal then normal else -1074
  let m :=
    if 0 ≤ place then roundDiv num (den <<< place.toNat)
    else roundDiv (num <<< (-place).toNat) den
  (place + 1074).toNat * exponentUnit + m

/-- The pattern nearest to a decimal's magnitude, or none if that is beyond every finite
number.  Exponents from 310 on are beyond it whatever the coefficient.  A magnitude below
two to the power of -1075, half of the smallest number, rounds to zero; that it is so small
follows from the number of the coefficient's binary digits, since a tenth is less than the
third power of a half. -/
def decimalPattern (d : Decimal) : Option Nat :=
  let size := (d.coefficient.log2 : Int) + 1
  if d.coefficient = 0 then some 0
  else if 310 ≤ d.exponent then none
  else if size + 3 * d.exponent ≤ -1075 then some 0
  else if 0 ≤ d.exponent then some (nearestPattern (d.coefficient * Nat.pow 10 d.exponent.toNat) 1)
  else some (nearestPattern d.coefficient (Nat.pow 10 (-d.exponent).toNat))

/-- The finite number nearest to a decimal; none if the decimal rounds beyond the largest. -/
def ofDecimal (d : Decimal) : Option Double :=
  match decimalPattern d with
  | none => none
  | some p => if h : p < patternEnd then some ⟨d.negative, p, h⟩ else none

/-- The finite number nearest to the decimal that a text writes. -/
def read (cs : List Char) : Option Double := (readDecimal cs).bind ofDecimal

end Double

end YamlDecode
