/-
Numbers as they are written.

An integer is an optional sign and at least one decimal digit; leading zeros are
allowed.  A decimal may have a point with digits on at least one side of it, and an
exponent behind `e` or `E` with a sign of its own.  Every integer is also a decimal.
Nothing else writes a number: there are no words for infinity or for an undefined
value, no blanks, no digit separators and no digits but the ten of ASCII.

Reading is exact and knows no limits.  An integer is read as an `Int`, a decimal as its
coefficient and its power of ten; which of them fit a machine number is asked later.
-/
namespace YamlDecode

/-! ### Rows of digits -/

/-- The number of a decimal digit. -/
def digit (c : Char) : Nat := c.toNat - '0'.toNat

/-- The loop of `digitsValue`: the number written so far is `high * power + low`.  Digits are
gathered in `low` while that is a small number, since adding them to a large one one by
one would take time for each of its words. -/
def digitsFrom (high low power : Nat) : List Char → Nat
  | [] => high * power + low
  | c :: cs =>
    if power < 1000000000000000000 then digitsFrom high (10 * low + digit c) (10 * power) cs
    else digitsFrom (high * power + low) (digit c) 10 cs

/-- The number that a row of decimal digits writes. -/
def digitsValue (digits : List Char) : Nat := digitsFrom 0 0 1 digits

private theorem digitsFrom_eq (cs : List Char) :
    ∀ high low power, digitsFrom high low power cs =
      cs.foldl (fun n c => 10 * n + digit c) (high * power + low) := by
  induction cs with
  | nil => intro high low power; rfl
  | cons c cs ih =>
      intro high low power
      simp only [digitsFrom, List.foldl_cons]
      split
      · rw [ih]
        congr 1
        rw [Nat.mul_left_comm]
        omega
      · rw [ih]
        congr 1
        omega

/-- Each digit makes ten of what stands before it. -/
theorem digitsValue_eq (digits : List Char) :
    digitsValue digits = digits.foldl (fun n c => 10 * n + digit c) 0 := by
  rw [digitsValue, digitsFrom_eq]

/-- A sign in front of a text: is it a minus sign, and what follows it? -/
def splitSign : List Char → Bool × List Char
  | '-' :: cs => (true, cs)
  | '+' :: cs => (false, cs)
  | cs => (false, cs)

/-! ### Integers -/

/-- The number written by at least one digit and nothing else. -/
def readNatural (cs : List Char) : Option Nat :=
  if cs.isEmpty || !cs.all Char.isDigit then none else some (digitsValue cs)

/-- The number written by an optional sign and at least one digit. -/
def readInteger (cs : List Char) : Option Int :=
  let (negative, digits) := splitSign cs
  (readNatural digits).map fun n => if negative then -(n : Int) else n

/-- The number of values of a word of 63 bits, and so where signed words of 64 bits end. -/
def signedEnd : Nat := 0x8000000000000000

/-- The number of values of a word of 64 bits. -/
def unsignedEnd : Nat := 0x10000000000000000

/-- The integers of a signed word of 64 bits. -/
def fitsSigned (n : Int) : Bool := -(signedEnd : Int) ≤ n && n < signedEnd

/-- The integers of an unsigned word of 64 bits. -/
def fitsUnsigned (n : Int) : Bool := 0 ≤ n && n < unsignedEnd

/-- A written integer that fits a signed word. -/
def readSigned (cs : List Char) : Option Int := (readInteger cs).filter fitsSigned

/-- A written integer that fits an unsigned word; a minus sign is refused even before
zero. -/
def readUnsigned (cs : List Char) : Option Int :=
  if (splitSign cs).1 then none else (readInteger cs).filter fitsUnsigned

/-- A written integer that fits either word. -/
def readWord (cs : List Char) : Option Int := (readSigned cs).or (readUnsigned cs)

/-! ### Decimals -/

/-- A written decimal: plus or minus `coefficient` times ten to the power of `exponent`. -/
structure Decimal where
  negative : Bool
  coefficient : Nat
  exponent : Int
  deriving DecidableEq, Repr

/-- The digits behind a decimal point, if there is one, and what follows them. -/
def splitFraction : List Char → List Char × List Char
  | '.' :: cs => cs.span Char.isDigit
  | cs => ([], cs)

/-- The exponent written by the end of a decimal: nothing at all, or `e` and an integer. -/
def readExponent : List Char → Option Int
  | [] => some 0
  | c :: cs => if c = 'e' || c = 'E' then readInteger cs else none

/-- The decimal that a text writes. -/
def readDecimal (cs : List Char) : Option Decimal :=
  let (negative, unsigned) := splitSign cs
  let (whole, rest) := unsigned.span Char.isDigit
  let (fraction, tail) := splitFraction rest
  if whole.isEmpty && fraction.isEmpty then none
  else (readExponent tail).map fun e =>
    ⟨negative, digitsValue (whole ++ fraction), e - fraction.length⟩

end YamlDecode
