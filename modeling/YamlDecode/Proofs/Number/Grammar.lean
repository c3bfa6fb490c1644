/-
The grammar of numbers.

What a number looks like is said here by rules, apart from how one is read: a sign or none, digits
with or without a point among them, and an exponent or none.  The rules give the number that is
written too, as an exact rational.

Both readers go from the left, and what they cut off is what the rules put together, because no part
starts with a character that the part in front of it may go on with: digits are no signs, and an
exponent starts with a letter.  So a text is read just if the rules allow it, and as what they say
(`readInteger_eq_some`, `readDecimal_eq_some`).
-/
import Mathlib.Data.List.TakeWhile
import Mathlib.Data.Rat.Defs
import Mathlib.Tactic.FieldSimp
import Mathlib.Tactic.Ring
import YamlDecode.Proofs.Number.Numeral

namespace YamlDecode

/-! ### Integers -/

/-- A row of at least one digit. -/
def IsDigits (cs : List Char) : Prop := cs ≠ [] ∧ ∀ c ∈ cs, c.isDigit = true

/-- The number that a row of digits writes. -/
def digitsNumber (digits : List Char) : Nat := Nat.ofDigitChars 10 digits 0

/-- A sign in front of a number, or none, and whether it is a minus sign. -/
inductive IsSign : List Char → Bool → Prop
  | none : IsSign [] false
  | plus : IsSign ['+'] false
  | minus : IsSign ['-'] true

/-- The integer that a sign and digits write. -/
def signedNumber (negative : Bool) (n : Nat) : Int := if negative then -(n : Int) else n

/-- An integer as it is written: a sign or none, and digits. -/
inductive IsInteger : List Char → Int → Prop
  | mk {sign digits : List Char} {negative : Bool} (hsign : IsSign sign negative)
      (hdigits : IsDigits digits) :
      IsInteger (sign ++ digits) (signedNumber negative (digitsNumber digits))

theorem digitsValue_eq_number (digits : List Char) : digitsValue digits = digitsNumber digits := by
  rw [digitsValue_eq, digitsNumber, Nat.ofDigitChars_eq_foldl]
  rfl

theorem exists_isSign (cs : List Char) :
    ∃ sign, IsSign sign (splitSign cs).1 ∧ cs = sign ++ (splitSign cs).2 := by
  unfold splitSign
  split
  · exact ⟨['-'], .minus, rfl⟩
  · exact ⟨['+'], .plus, rfl⟩
  · exact ⟨[], .none, rfl⟩

/-- A sign is split off what does not start with another one. -/
theorem splitSign_append {sign : List Char} {negative : Bool} (h : IsSign sign negative)
    {rest : List Char} (hrest : ∀ c ∈ rest.head?, c ≠ '-' ∧ c ≠ '+') :
    splitSign (sign ++ rest) = (negative, rest) := by
  cases h with
  | none =>
      rw [List.nil_append, splitSign]
      · rintro _ rfl
        exact (hrest '-' rfl).1 rfl
      · rintro _ rfl
        exact (hrest '+' rfl).2 rfl
  | plus => rfl
  | minus => rfl

theorem ne_sign_of_isDigit {c : Char} (h : c.isDigit = true) : c ≠ '-' ∧ c ≠ '+' := by
  constructor
  · rintro rfl
    cases h
  · rintro rfl
    cases h

theorem readNatural_eq_some {cs : List Char} {n : Nat} :
    readNatural cs = some n ↔ IsDigits cs ∧ digitsNumber cs = n := by
  have hcond : (cs.isEmpty || !cs.all Char.isDigit) = true ↔ ¬IsDigits cs := by
    simp only [IsDigits, Bool.or_eq_true, List.isEmpty_iff, Bool.not_eq_true', not_and,
      ← Bool.not_eq_true, List.all_eq_true]
    tauto
  unfold readNatural
  by_cases h : IsDigits cs
  · rw [if_neg (fun hc => hcond.1 hc h), digitsValue_eq_number, Option.some_inj]
    exact (and_iff_right h).symm
  · rw [if_pos (hcond.2 h)]
    exact iff_of_false nofun fun hand => h hand.1

theorem readInteger_eq (cs : List Char) :
    readInteger cs =
      (readNatural (splitSign cs).2).map (signedNumber (splitSign cs).1) := by
  have hlift : readInteger cs =
      ((readNatural (splitSign cs).2).bind fun m => pure (m : Int)).map
        fun n => if (splitSign cs).1 then -n else n := rfl
  rw [hlift]
  cases readNatural (splitSign cs).2 with
  | none => rfl
  | some m => rfl

/-- Just the integers of the grammar are read, each as the number that it writes. -/
theorem readInteger_eq_some {cs : List Char} {n : Int} :
    readInteger cs = some n ↔ IsInteger cs n := by
  rw [readInteger_eq, Option.map_eq_some_iff]
  constructor
  · rintro ⟨m, hm, rfl⟩
    obtain ⟨hdigits, rfl⟩ := readNatural_eq_some.1 hm
    obtain ⟨sign, hsign, hcs⟩ := exists_isSign cs
    have hinteger := IsInteger.mk hsign hdigits
    rwa [← hcs] at hinteger
  · rintro ⟨hsign, hdigits⟩
    have hhead : ∀ {digits : List Char}, IsDigits digits →
        ∀ c ∈ digits.head?, c ≠ '-' ∧ c ≠ '+' :=
      fun hdigits c hc => ne_sign_of_isDigit (hdigits.2 c (List.mem_of_mem_head? hc))
    rw [splitSign_append hsign (hhead hdigits)]
    exact ⟨_, readNatural_eq_some.2 ⟨hdigits, rfl⟩, rfl⟩

/-- A text is read as a word if it writes an integer that a word of 64 bits holds, with a sign or
without one. -/
theorem readWord_isSome {cs : List Char} :
    (readWord cs).isSome = true ↔ ∃ n, IsInteger cs n ∧ -2 ^ 63 ≤ n ∧ n < 2 ^ 64 := by
  constructor
  · intro h
    obtain ⟨n, hn⟩ := Option.isSome_iff_exists.1 h
    refine ⟨n, readInteger_eq_some.1 (readInteger_of_readWord hn), ?_⟩
    rcases Option.or_eq_some_iff.1 hn with hsigned | ⟨-, hunsigned⟩
    · have := range_of_readSigned hsigned
      omega
    · have := range_of_readUnsigned hunsigned
      omega
  · rintro ⟨n, hinteger, hlow, hhigh⟩
    have hread := readInteger_eq_some.2 hinteger
    rw [readWord, Option.isSome_or, Bool.or_eq_true]
    by_cases hsigned : n < 2 ^ 63
    · have hfits : fitsSigned n = true := (fitsSigned_iff n).2 ⟨hlow, hsigned⟩
      exact .inl (by rw [readSigned, hread, Option.filter_some, if_pos hfits]; rfl)
    · have hfits : fitsUnsigned n = true := (fitsUnsigned_iff n).2 ⟨by omega, hhigh⟩
      -- a minus sign stands in front of no positive number
      have hplus : (splitSign cs).1 = false := by
        rw [readInteger_eq] at hread
        obtain ⟨m, -, hm⟩ := Option.map_eq_some_iff.1 hread
        by_contra hminus
        rw [Bool.not_eq_false] at hminus
        have hm : -(m : Int) = n := by rwa [hminus] at hm
        omega
      refine .inr ?_
      rw [readUnsigned, hplus, hread, Option.filter_some, if_pos hfits]
      rfl

/-! ### Decimals -/

/-- Digits with or without a point: the text, and the digits on either side of the point. -/
inductive IsBody : List Char → List Char → List Char → Prop
  | whole {digits : List Char} (h : IsDigits digits) : IsBody digits digits []
  | point {digits fraction : List Char} (h : IsDigits digits)
      (hfraction : ∀ c ∈ fraction, c.isDigit = true) :
      IsBody (digits ++ '.' :: fraction) digits fraction
  | fraction {fraction : List Char} (h : IsDigits fraction) : IsBody ('.' :: fraction) [] fraction

/-- The end of a number: an exponent or none. -/
inductive IsExponent : List Char → Int → Prop
  | none : IsExponent [] 0
  | some {c : Char} {cs : List Char} {n : Int} (hletter : c = 'e' ∨ c = 'E') (h : IsInteger cs n) :
      IsExponent (c :: cs) n

/-- The number that digits on either side of a point write. -/
def bodyNumber (whole fraction : List Char) : ℚ :=
  digitsNumber whole + digitsNumber fraction / 10 ^ fraction.length

/-- A decimal as it is written: a sign or none, digits and a point, and an exponent or none.  The
sign is kept apart from the number, since zero has one too. -/
inductive IsDecimal : List Char → Bool → ℚ → Prop
  | mk {sign body tail whole fraction : List Char} {negative : Bool} {e : Int}
      (hsign : IsSign sign negative) (hbody : IsBody body whole fraction)
      (hexponent : IsExponent tail e) :
      IsDecimal (sign ++ (body ++ tail)) negative (bodyNumber whole fraction * 10 ^ e)

/-- The number that a decimal is, without its sign. -/
def Decimal.magnitude (d : Decimal) : ℚ := d.coefficient * 10 ^ d.exponent

theorem digitsNumber_append (whole fraction : List Char) :
    digitsNumber (whole ++ fraction) =
      digitsNumber whole * 10 ^ fraction.length + digitsNumber fraction := by
  have hshift : ∀ (cs : List Char) (n : Nat),
      Nat.ofDigitChars 10 cs n = n * 10 ^ cs.length + Nat.ofDigitChars 10 cs 0 := by
    intro cs
    induction cs with
    | nil => intro n; simp
    | cons c cs ih =>
        intro n
        rw [Nat.ofDigitChars_cons, Nat.ofDigitChars_cons, ih, ih (10 * 0 + _), List.length_cons,
          Nat.pow_succ]
        ring
  rw [digitsNumber, Nat.ofDigitChars_append, hshift]
  rfl

/-- Digits behind a point make the exponent smaller. -/
theorem magnitude_eq_bodyNumber (negative : Bool) (whole fraction : List Char) (e : Int) :
    Decimal.magnitude ⟨negative, digitsValue (whole ++ fraction), e - fraction.length⟩ =
      bodyNumber whole fraction * 10 ^ e := by
  have hten : (10 : ℚ) ≠ 0 := by norm_num
  rw [Decimal.magnitude, digitsValue_eq_number, digitsNumber_append, bodyNumber, zpow_sub₀ hten,
    zpow_natCast]
  push_cast
  field_simp

/-- An exponent starts with a letter. -/
theorem IsExponent.head {tail : List Char} {e : Int} (h : IsExponent tail e) :
    ∀ c ∈ tail.head?, c.isDigit = false ∧ c ≠ '.' := by
  cases h with
  | none => nofun
  | some hletter _ =>
      rintro c ⟨⟩
      rcases hletter with rfl | rfl
      all_goals decide

theorem readExponent_eq_some {tail : List Char} {e : Int} :
    readExponent tail = some e ↔ IsExponent tail e := by
  constructor
  · intro h
    cases tail with
    | nil =>
        obtain rfl := Option.some.inj h
        exact .none
    | cons c cs =>
        rw [readExponent] at h
        split at h
        · next hletter =>
          rw [Bool.or_eq_true, decide_eq_true_eq, decide_eq_true_eq] at hletter
          exact .some hletter (readInteger_eq_some.1 h)
        · cases h
  · rintro (_ | ⟨hletter, h⟩)
    · rfl
    · rw [readExponent, if_pos (by simpa using hletter)]
      exact readInteger_eq_some.2 h

/-- Digits are cut off what does not start with another one. -/
theorem span_isDigit {digits rest : List Char} (hdigits : ∀ c ∈ digits, c.isDigit = true)
    (hrest : ∀ c ∈ rest.head?, c.isDigit = false) :
    (digits ++ rest).span Char.isDigit = (digits, rest) := by
  rw [List.span_eq_takeWhile_dropWhile, List.takeWhile_append_of_pos hdigits,
    List.dropWhile_append_of_pos hdigits]
  cases rest with
  | nil => simp
  | cons c rest =>
      have hc : ¬c.isDigit = true := by simp [hrest c rfl]
      rw [List.takeWhile_cons_of_neg hc, List.dropWhile_cons_of_neg hc, List.append_nil]

/-- What may follow the digits of a number in front of its exponent. -/
theorem splitFraction_append {fraction tail : List Char}
    (hfraction : ∀ c ∈ fraction, c.isDigit = true) (htail : ∀ c ∈ tail.head?, c.isDigit = false) :
    splitFraction ('.' :: (fraction ++ tail)) = (fraction, tail) :=
  span_isDigit hfraction htail

theorem splitFraction_of_ne {tail : List Char} (htail : ∀ c ∈ tail.head?, c ≠ '.') :
    splitFraction tail = ([], tail) := by
  rw [splitFraction]
  rintro _ rfl
  exact htail '.' rfl rfl

/-- The readers of digits cut off what the rules put in front of an exponent. -/
theorem IsBody.split {body whole fraction : List Char} (h : IsBody body whole fraction)
    {tail : List Char} (htail : ∀ c ∈ tail.head?, c.isDigit = false ∧ c ≠ '.') :
    ∃ rest, (body ++ tail).span Char.isDigit = (whole, rest) ∧ splitFraction rest = (fraction, tail) ∧
      (whole.isEmpty && fraction.isEmpty) = false := by
  have hdigit : ∀ c ∈ tail.head?, c.isDigit = false := fun c hc => (htail c hc).1
  have hpoint : ∀ {rest : List Char}, ∀ c ∈ ('.' :: rest).head?, c.isDigit = false := by
    rintro rest c ⟨⟩
    rfl
  cases h with
  | whole h =>
      refine ⟨tail, span_isDigit h.2 hdigit, splitFraction_of_ne fun c hc => (htail c hc).2, ?_⟩
      simp [h.1]
  | @point digits fraction h hfraction =>
      refine ⟨'.' :: (fraction ++ tail), ?_, splitFraction_append hfraction hdigit, by simp [h.1]⟩
      rw [List.append_assoc]
      exact span_isDigit h.2 hpoint
  | @fraction fraction h =>
      refine ⟨'.' :: (fraction ++ tail), ?_, splitFraction_append h.2 hdigit, by simp [h.1]⟩
      exact @span_isDigit [] _ nofun hpoint

/-- What the readers of digits cut off is put together by the rules. -/
theorem exists_isBody {cs whole rest fraction tail : List Char}
    (hwhole : cs.span Char.isDigit = (whole, rest)) (hfraction : splitFraction rest = (fraction, tail))
    (hne : (whole.isEmpty && fraction.isEmpty) = false) :
    ∃ body, IsBody body whole fraction ∧ cs = body ++ tail := by
  have hspan : ∀ {cs digits rest : List Char}, cs.span Char.isDigit = (digits, rest) →
      cs = digits ++ rest ∧ ∀ c ∈ digits, c.isDigit = true := by
    intro cs digits rest h
    rw [List.span_eq_takeWhile_dropWhile, Prod.mk.injEq] at h
    obtain ⟨rfl, rfl⟩ := h
    exact ⟨List.takeWhile_append_dropWhile.symm, fun c hc => List.mem_takeWhile_imp hc⟩
  obtain ⟨rfl, hdigits⟩ := hspan hwhole
  unfold splitFraction at hfraction
  split at hfraction
  · next rest =>
    obtain ⟨rfl, hbehind⟩ := hspan hfraction
    by_cases hempty : whole = []
    · subst hempty
      have hne : fraction ≠ [] := by simpa using hne
      exact ⟨'.' :: fraction, .fraction ⟨hne, hbehind⟩, rfl⟩
    · exact ⟨whole ++ '.' :: fraction, .point ⟨hempty, hdigits⟩ hbehind, by simp⟩
  · obtain ⟨rfl, rfl⟩ := Prod.mk.inj hfraction
    have hne : whole ≠ [] := by simpa using hne
    exact ⟨whole, .whole ⟨hne, hdigits⟩, rfl⟩

theorem IsBody.head {body whole fraction : List Char} (h : IsBody body whole fraction)
    (tail : List Char) : ∀ c ∈ (body ++ tail).head?, c ≠ '-' ∧ c ≠ '+' := by
  have hdigits : ∀ {digits rest : List Char}, IsDigits digits →
      ∀ c ∈ (digits ++ rest).head?, c ≠ '-' ∧ c ≠ '+' := by
    intro digits rest h c hc
    rw [List.head?_append_of_ne_nil _ h.1] at hc
    exact ne_sign_of_isDigit (h.2 c (List.mem_of_mem_head? hc))
  cases h with
  | whole h => exact hdigits h
  | point h _ =>
      rw [List.append_assoc]
      exact hdigits h
  | fraction _ =>
      rintro c ⟨⟩
      decide

/-- Just the decimals of the grammar are read, each as the number that it writes. -/
theorem readDecimal_eq_some {cs : List Char} {negative : Bool} {x : ℚ} :
    (∃ d, readDecimal cs = some d ∧ d.negative = negative ∧ d.magnitude = x) ↔
      IsDecimal cs negative x := by
  constructor
  · rintro ⟨d, hread, rfl, rfl⟩
    unfold readDecimal at hread
    obtain ⟨sign, hsign, hcs⟩ := exists_isSign cs
    generalize splitSign cs = split at hread hsign hcs
    obtain ⟨negative, unsigned⟩ := split
    cases hwhole : unsigned.span Char.isDigit with
    | mk whole rest =>
      cases hfraction : splitFraction rest with
      | mk fraction tail =>
        simp only [hwhole, hfraction] at hread
        split at hread
        · cases hread
        · next hne =>
          obtain ⟨e, hexponent, rfl⟩ := Option.map_eq_some_iff.1 hread
          obtain ⟨body, hbody, hunsigned⟩ := exists_isBody hwhole hfraction (Bool.eq_false_iff.2 hne)
          have hdecimal := IsDecimal.mk hsign hbody (readExponent_eq_some.1 hexponent)
          have htext : cs = sign ++ unsigned := hcs
          rw [magnitude_eq_bodyNumber]
          rwa [← hunsigned, ← htext] at hdecimal
  · rintro ⟨hsign, hbody, hexponent⟩
    obtain ⟨rest, hwhole, hfraction, hne⟩ := hbody.split hexponent.head
    refine ⟨⟨_, _, _⟩, ?_, rfl, magnitude_eq_bodyNumber _ _ _ _⟩
    unfold readDecimal
    rw [splitSign_append hsign (hbody.head _)]
    simp only [hwhole, hfraction, hne, readExponent_eq_some.2 hexponent]
    rfl

end YamlDecode
