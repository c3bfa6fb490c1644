/-
Integers written and read.

Integers are written in the usual way, with a minus sign if they are negative and without
leading zeros.  Reading gives back what was written, and a word of 64 bits, signed or not,
holds what is in its range.
-/
import Mathlib.Algebra.Ring.Int.Defs
import YamlDecode.Number.Numeral

namespace YamlDecode

/-! ### Ranges -/

theorem fitsSigned_iff (n : Int) : fitsSigned n = true ↔ -2 ^ 63 ≤ n ∧ n < 2 ^ 63 := by
  rw [fitsSigned, Bool.and_eq_true, decide_eq_true_eq, decide_eq_true_eq]
  rfl

theorem fitsUnsigned_iff (n : Int) : fitsUnsigned n = true ↔ 0 ≤ n ∧ n < 2 ^ 64 := by
  rw [fitsUnsigned, Bool.and_eq_true, decide_eq_true_eq, decide_eq_true_eq]
  rfl

theorem range_of_readSigned {cs : List Char} {n : Int} (h : readSigned cs = some n) :
    -2 ^ 63 ≤ n ∧ n < 2 ^ 63 := by
  rw [readSigned, Option.filter_eq_some_iff] at h
  exact (fitsSigned_iff n).1 h.2

theorem range_of_readUnsigned {cs : List Char} {n : Int} (h : readUnsigned cs = some n) :
    0 ≤ n ∧ n < 2 ^ 64 := by
  unfold readUnsigned at h
  split at h
  · cases h
  · rw [Option.filter_eq_some_iff] at h
    exact (fitsUnsigned_iff n).1 h.2

/-- What fits a word is read as the integer that the text writes. -/
theorem readInteger_of_readWord {cs : List Char} {n : Int} (h : readWord cs = some n) :
    readInteger cs = some n := by
  rw [readWord, Option.or_eq_some_iff] at h
  rcases h with h | ⟨-, h⟩
  · rw [readSigned, Option.filter_eq_some_iff] at h
    exact h.1
  · unfold readUnsigned at h
    split at h
    · cases h
    · rw [Option.filter_eq_some_iff] at h
      exact h.1

/-! ### Writing -/

/-- An integer in decimal digits. -/
def writeInteger (n : Int) : List Char :=
  if n < 0 then '-' :: Nat.toDigits 10 n.natAbs else Nat.toDigits 10 n.natAbs

theorem isDigit_of_mem_toDigits {n : Nat} {c : Char} (h : c ∈ Nat.toDigits 10 n) :
    c.isDigit = true :=
  Nat.isDigit_of_mem_toDigits (by decide) (by decide) h

theorem readNatural_toDigits (n : Nat) : readNatural (Nat.toDigits 10 n) = some n := by
  have hall : (Nat.toDigits 10 n).all Char.isDigit = true :=
    List.all_eq_true.2 fun c hc => isDigit_of_mem_toDigits hc
  have hne : (Nat.toDigits 10 n).isEmpty = false := by
    simp [List.isEmpty_eq_false_iff, Nat.toDigits_ne_nil]
  rw [readNatural, hall, hne, digitsValue_eq]
  have h := Nat.ofDigitChars_ten_toDigits (n := n)
  rw [Nat.ofDigitChars_eq_foldl] at h
  simpa [digit] using h

/-- A row of digits starts with no sign. -/
theorem splitSign_toDigits (n : Nat) :
    splitSign (Nat.toDigits 10 n) = (false, Nat.toDigits 10 n) := by
  cases h : Nat.toDigits 10 n with
  | nil => exact absurd h Nat.toDigits_ne_nil
  | cons c cs =>
      have hdigit : c.isDigit = true := isDigit_of_mem_toDigits (n := n) (by simp [h])
      rw [splitSign]
      · rintro _ ⟨⟩
        exact absurd hdigit (by decide)
      · rintro _ ⟨⟩
        exact absurd hdigit (by decide)

theorem splitSign_writeInteger (n : Int) :
    splitSign (writeInteger n) = (decide (n < 0), Nat.toDigits 10 n.natAbs) := by
  unfold writeInteger
  split
  · next h => simp [splitSign, h]
  · next h => rw [splitSign_toDigits]; simp [h]

theorem readInteger_writeInteger (n : Int) : readInteger (writeInteger n) = some n := by
  rw [readInteger, splitSign_writeInteger]
  simp only [readNatural_toDigits, Option.bind_eq_bind, Option.bind_some, Option.pure_def,
    Option.map_some, decide_eq_true_eq]
  congr 1
  split <;> omega

/-- An integer of either word is read back. -/
theorem readWord_writeInteger {n : Int} (low : -2 ^ 63 ≤ n) (high : n < 2 ^ 64) :
    readWord (writeInteger n) = some n := by
  rw [readWord, readSigned, readUnsigned, readInteger_writeInteger, splitSign_writeInteger]
  by_cases hsigned : n < 2 ^ 63
  · have : fitsSigned n = true := (fitsSigned_iff n).2 ⟨low, hsigned⟩
    simp [Option.filter, this]
  · have hs : fitsSigned n = false := by
      rw [← Bool.not_eq_true, fitsSigned_iff]
      omega
    have hu : fitsUnsigned n = true := (fitsUnsigned_iff n).2 ⟨by omega, high⟩
    have hpos : ¬n < 0 := by omega
    simp [Option.filter, hs, hu, hpos]

end YamlDecode
