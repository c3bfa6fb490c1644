/-
Rounding to the nearest number.

A magnitude is a number of units in the last place, and the unit doubles with each exponent.  Above
the least exponent the digits fill their places, so seen from the exponent that a number has, every
magnitude that could be near is a number of units as well (`magnitude_grid`), and what is to be found
is the nearest integer.  That one may have a digit too many; it is the first magnitude with the next
exponent then, and no case of its own.

`magnitude` goes on behind the last finite pattern as if there were no greatest exponent.  That is
how overflow is meant: a decimal is too large if rounding without a greatest exponent ends up behind
the last finite number, not if the decimal itself lies behind it.  At most one pattern is nearest to
a number (`Nearest.unique`), so a decimal whose pattern is no finite one is near to no finite number
at all.
-/
import Mathlib.Algebra.Group.Nat.Even
import Mathlib.Algebra.Order.Field.Power
import Mathlib.Data.Rat.Cast.Order
import Mathlib.Order.Monotone.Basic
import Mathlib.Tactic.FieldSimp
import Mathlib.Tactic.Linarith
import Mathlib.Tactic.NormNum
import Mathlib.Tactic.Positivity
import Mathlib.Tactic.Ring
import YamlDecode.Number.Double
import YamlDecode.Proofs.Number.Grammar

namespace YamlDecode.Double

/-- Among the numbers `f 0`, `f 1` and so on none is nearer to `x` than `f p`, and if another one is
as near, then `p` is even. -/
structure Nearest (f : Nat → ℚ) (p : Nat) (x : ℚ) : Prop where
  nearest : ∀ q, |x - f p| ≤ |x - f q|
  even : ∀ q, q ≠ p → |x - f q| = |x - f p| → Even p

/-! ### Integers -/

theorem nearest_of_le_half {y : ℚ} {m : Nat} (h : |y - m| ≤ 1 / 2)
    (heven : |y - m| = 1 / 2 → Even m) : Nearest (fun n => (n : ℚ)) m y := by
  have hfar : ∀ n : Nat, n ≠ m → 1 / 2 ≤ |y - n| := by
    intro n hne
    have hdist : (1 : ℚ) ≤ |(m : ℚ) - n| := by
      have hint : (1 : ℤ) ≤ |(m : ℤ) - n| := Int.one_le_abs (by omega)
      exact_mod_cast hint
    have htriangle : |(m : ℚ) - n| ≤ |y - n| + |y - m| := by
      have hsplit : (m : ℚ) - n = (y - n) - (y - m) := by ring
      rw [hsplit]
      exact abs_sub _ _
    linarith
  refine ⟨fun n => ?_, fun n hne htie => ?_⟩
  · by_cases hn : n = m
    · rw [hn]
    · exact h.trans (hfar n hn)
  · refine heven (le_antisymm h ?_)
    rw [← htie]
    exact hfar n hne

/-- A quotient is rounded to the nearest integer, and to the even one half-way. -/
theorem roundDiv_nearest (num : Nat) {den : Nat} (hden : 0 < den) :
    Nearest (fun n => (n : ℚ)) (roundDiv num den) (num / den) := by
  have hpos : (0 : ℚ) < den := by exact_mod_cast hden
  -- the quotient, less the integer below it
  obtain ⟨r, hr⟩ : ∃ r : ℚ, r = (num % den : Nat) / den := ⟨_, rfl⟩
  have hquotient : (num : ℚ) / den = (num / den : Nat) + r := by
    have hsplit : (num : ℚ) = den * (num / den : Nat) + (num % den : Nat) := by
      exact_mod_cast (Nat.div_add_mod num den).symm
    rw [hr, eq_comm, eq_div_iff hpos.ne', hsplit]
    field_simp
  have hlow : 0 ≤ r := by rw [hr]; positivity
  have hhigh : r < 1 := by
    rw [hr, div_lt_one hpos]
    exact_mod_cast Nat.mod_lt num hden
  have htwice : ((2 * (num % den) : Nat) : ℚ) = r * 2 * den := by
    rw [hr]
    push_cast
    field_simp
  have hless : 2 * (num % den) < den ↔ r < 1 / 2 := by
    rw [← @Nat.cast_lt ℚ, htwice, lt_div_iff₀ two_pos]
    exact mul_lt_iff_lt_one_left hpos
  have hmore : den < 2 * (num % den) ↔ 1 / 2 < r := by
    rw [← @Nat.cast_lt ℚ, htwice, div_lt_iff₀ two_pos]
    exact lt_mul_iff_one_lt_left hpos
  rw [hquotient, roundDiv]
  rcases lt_trichotomy r (1 / 2) with hbelow | hhalf | habove
  · have hdown : |((num / den : Nat) : ℚ) + r - (num / den : Nat)| = r := by
      rw [add_sub_cancel_left, abs_of_nonneg hlow]
    rw [if_pos (hless.2 hbelow)]
    refine nearest_of_le_half (hdown.trans_le hbelow.le) fun htie => ?_
    exact absurd (hdown.symm.trans htie) hbelow.ne
  · have heven : Even (num / den + num / den % 2) := by
      rw [Nat.even_iff]
      omega
    rw [if_neg (mt hless.1 hhalf.not_lt), if_neg (mt hmore.1 hhalf.not_gt)]
    refine nearest_of_le_half ?_ fun _ => heven
    rw [hhalf]
    push_cast
    rcases Nat.mod_two_eq_zero_or_one (num / den) with hzero | hone
    · rw [hzero]
      norm_num
    · rw [hone]
      norm_num
  · have hup : |((num / den : Nat) : ℚ) + r - ((num / den + 1 : Nat) : ℚ)| = 1 - r := by
      push_cast
      rw [abs_sub_comm, abs_of_nonneg (by linarith)]
      ring
    rw [if_neg (mt hless.1 habove.not_gt), if_pos (hmore.2 habove)]
    refine nearest_of_le_half ?_ fun htie => ?_
    · rw [hup]
      linarith
    · rw [hup] at htie
      linarith

theorem Nearest.le_of_le {y : ℚ} {m n : Nat} (h : Nearest (fun n => (n : ℚ)) m y)
    (hy : y ≤ n) : m ≤ n := by
  by_contra hlt
  have hcast : (n : ℚ) < m := by exact_mod_cast Nat.not_le.1 hlt
  have hnear := h.nearest n
  rw [abs_sub_comm y m, abs_sub_comm y n, abs_of_nonneg (by linarith),
    abs_of_nonneg (by linarith)] at hnear
  linarith

theorem Nearest.le_of_ge {y : ℚ} {m n : Nat} (h : Nearest (fun n => (n : ℚ)) m y)
    (hy : (n : ℚ) ≤ y) : n ≤ m := by
  by_contra hlt
  have hcast : (m : ℚ) < n := by exact_mod_cast Nat.not_le.1 hlt
  have hnear := h.nearest n
  rw [abs_of_nonneg (by linarith), abs_of_nonneg (by linarith)] at hnear
  linarith

/-! ### Magnitudes -/

/-- The number that a pattern stands for, without a sign.  Behind the finite patterns it goes on as
if there were no greatest exponent. -/
def magnitude (p : Nat) : ℚ :=
  if p < exponentUnit then p * 2 ^ (-1074 : ℤ)
  else (exponentUnit + p % exponentUnit : Nat) * 2 ^ ((p / exponentUnit : Nat) - 1075 : ℤ)

/-- One unit in the last place, `k` exponents above the least. -/
def unit (k : Nat) : ℚ := 2 ^ ((k : ℤ) - 1074)

theorem unit_pos (k : Nat) : 0 < unit k := zpow_pos (by norm_num) _

theorem unit_add (j k : Nat) : unit (j + k) = 2 ^ k * unit j := by
  rw [unit, unit, ← zpow_natCast, ← zpow_add₀ (by norm_num)]
  congr 1
  push_cast
  ring

theorem unit_succ (k : Nat) : unit (k + 1) = 2 * unit k := by
  rw [unit_add, pow_one]

theorem magnitude_small {m : Nat} (hm : m < exponentUnit) : magnitude m = m * unit 0 := if_pos hm

theorem magnitude_normal {m : Nat} (hm : m < exponentUnit) (k : Nat) :
    magnitude ((k + 1) * exponentUnit + m) = (exponentUnit + m : Nat) * unit k := by
  have hpos : 0 < exponentUnit := by decide
  have hdiv : ((k + 1) * exponentUnit + m) / exponentUnit = k + 1 := by
    rw [Nat.add_comm, Nat.add_mul_div_right _ _ hpos, Nat.div_eq_of_lt hm, Nat.zero_add]
  have hmod : ((k + 1) * exponentUnit + m) % exponentUnit = m := by
    rw [Nat.add_comm, Nat.add_mul_mod_self_right, Nat.mod_eq_of_lt hm]
  have hlarge : ¬(k + 1) * exponentUnit + m < exponentUnit := by
    rw [Nat.add_mul]
    omega
  have hplace : (2 : ℚ) ^ (((k + 1 : Nat) : ℤ) - 1075) = unit k := by
    rw [unit]
    congr 1
    push_cast
    ring
  rw [magnitude, if_neg hlarge, hdiv, hmod, hplace]

/-- The magnitude of `m` units, where `m` has as many binary digits as fit or the exponent is the
least one.  With one unit more than fit the next exponent is reached. -/
theorem magnitude_eq {k m : Nat} (hm : m ≤ 2 * exponentUnit) (hk : k = 0 ∨ exponentUnit ≤ m) :
    magnitude (k * exponentUnit + m) = m * unit k := by
  rcases Nat.lt_or_ge m exponentUnit with hsmall | hlarge
  · obtain rfl : k = 0 := hk.resolve_right (Nat.not_le.2 hsmall)
    rw [Nat.zero_mul, Nat.zero_add, magnitude_small hsmall]
  obtain ⟨r, rfl⟩ := Nat.exists_eq_add_of_le hlarge
  rcases Nat.lt_or_ge r exponentUnit with hfits | hcarry
  · rw [← Nat.add_assoc, ← Nat.succ_mul]
    exact magnitude_normal hfits k
  · obtain rfl : r = exponentUnit := by omega
    have hnormal := magnitude_normal (m := 0) (by decide) (k + 1)
    rw [Nat.add_zero, Nat.add_zero, unit_succ] at hnormal
    rw [← Nat.add_assoc, ← Nat.succ_mul, ← Nat.succ_mul, hnormal]
    push_cast
    ring

/-- Every pattern is a number of units, with as many digits as fit or of the least exponent. -/
theorem exists_units (p : Nat) :
    ∃ k m, p = k * exponentUnit + m ∧ m < 2 * exponentUnit ∧ (k = 0 ∨ exponentUnit ≤ m) := by
  have hpos : 0 < exponentUnit := by decide
  have hsplit := Nat.div_add_mod' p exponentUnit
  have hmod := Nat.mod_lt p hpos
  cases hdiv : p / exponentUnit with
  | zero =>
      rw [hdiv, Nat.zero_mul, Nat.zero_add] at hsplit
      exact ⟨0, p, by omega, by omega, .inl rfl⟩
  | succ k =>
      rw [hdiv, Nat.succ_mul] at hsplit
      exact ⟨k, exponentUnit + p % exponentUnit, by omega, by omega, .inr (Nat.le_add_right _ _)⟩

theorem magnitude_strictMono : StrictMono magnitude := by
  refine strictMono_nat_of_lt_succ fun p => ?_
  obtain ⟨k, m, rfl, hm, hk⟩ := exists_units p
  rw [Nat.add_assoc, magnitude_eq hm.le hk, magnitude_eq hm (hk.imp_right Nat.le_succ_of_le)]
  have := unit_pos k
  push_cast
  linarith

theorem unit_mono {j k : Nat} (h : j ≤ k) : unit j ≤ unit k :=
  zpow_le_zpow_right₀ (by norm_num) (by omega)

/-- Seen from some exponent, a pattern is a number of units too, or else it is below all those with
that exponent. -/
theorem magnitude_grid (k p : Nat) :
    (∃ n : Nat, magnitude p = n * unit k) ∨ 0 < k ∧ magnitude p < exponentUnit * unit k := by
  obtain ⟨j, m, rfl, hm, hj⟩ := exists_units p
  rw [magnitude_eq hm.le hj]
  rcases Nat.lt_or_ge j k with hless | hmore
  · refine .inr ⟨Nat.zero_lt_of_lt hless, ?_⟩
    have hcast : (m : ℚ) < 2 * exponentUnit := by exact_mod_cast hm
    calc (m : ℚ) * unit j < 2 * exponentUnit * unit j :=
          mul_lt_mul_of_pos_right hcast (unit_pos j)
      _ = exponentUnit * unit (j + 1) := by rw [unit_succ]; ring
      _ ≤ exponentUnit * unit k :=
          mul_le_mul_of_nonneg_left (unit_mono hless) (Nat.cast_nonneg _)
  · obtain ⟨i, rfl⟩ := Nat.exists_eq_add_of_le hmore
    refine .inl ⟨m * 2 ^ i, ?_⟩
    rw [unit_add]
    push_cast
    ring

/-! ### The nearest magnitude -/

/-- Rounding to a number of units finds the nearest pattern, if the unit is that of the exponent
that the number has. -/
theorem nearest_units {x : ℚ} {k m : Nat} (h : Nearest (fun n => (n : ℚ)) m (x / unit k))
    (hm : m ≤ 2 * exponentUnit) (hk : k = 0 ∨ (exponentUnit : ℚ) ≤ x / unit k) :
    Nearest magnitude (k * exponentUnit + m) x := by
  have hunit := unit_pos k
  have hmagnitude : magnitude (k * exponentUnit + m) = m * unit k :=
    magnitude_eq hm (hk.imp_right h.le_of_ge)
  have hscale : ∀ n : Nat, |x - n * unit k| = |x / unit k - n| * unit k := by
    intro n
    rw [← abs_of_pos hunit, ← abs_mul, abs_of_pos hunit, sub_mul, div_mul_cancel₀ _ hunit.ne']
  -- a pattern below is farther away than the least one with that exponent
  have hbelow : ∀ q, 0 < k → magnitude q < exponentUnit * unit k →
      |x - m * unit k| < |x - magnitude q| := by
    intro q hpos hq
    have hx : exponentUnit * unit k ≤ x := by
      have := hk.resolve_left hpos.ne'
      rwa [le_div_iff₀ hunit] at this
    calc |x - m * unit k| ≤ |x - exponentUnit * unit k| := by
          rw [hscale, hscale]
          exact mul_le_mul_of_nonneg_right (h.nearest _) hunit.le
      _ = x - exponentUnit * unit k := abs_of_nonneg (by linarith)
      _ < x - magnitude q := by linarith
      _ ≤ |x - magnitude q| := le_abs_self _
  refine ⟨fun q => ?_, fun q hne htie => ?_⟩
  · rw [hmagnitude]
    rcases magnitude_grid k q with ⟨n, hn⟩ | ⟨hpos, hq⟩
    · rw [hn, hscale, hscale]
      exact mul_le_mul_of_nonneg_right (h.nearest n) hunit.le
    · exact (hbelow q hpos hq).le
  · rw [hmagnitude] at htie
    rcases magnitude_grid k q with ⟨n, hn⟩ | ⟨hpos, hq⟩
    · have hnm : n ≠ m := by
        rintro rfl
        exact hne (magnitude_strictMono.injective (hn.trans hmagnitude.symm))
      rw [hn, hscale, hscale] at htie
      have heven := h.even n hnm (mul_right_cancel₀ hunit.ne' htie)
      have hunits : Even (k * exponentUnit) := Even.mul_left (by decide) k
      exact hunits.add heven
    · exact absurd htie.symm (hbelow q hpos hq).ne

/-- Only one number is nearest. -/
theorem Nearest.unique {f : Nat → ℚ} (hf : StrictMono f) {p q : Nat} {x : ℚ} (hp : Nearest f p x)
    (hq : Nearest f q x) : p = q := by
  have hno : ∀ {p q}, Nearest f p x → Nearest f q x → ¬p < q := by
    intro p q hp hq hlt
    have htie : |x - f p| = |x - f q| := le_antisymm (hp.nearest q) (hq.nearest p)
    have hpeven := hp.even q hlt.ne' htie.symm
    have hqeven := hq.even p hlt.ne htie
    -- two even ones that are equally near have one between them, which is nearer
    have hnext : p + 1 < q := by
      rw [Nat.even_iff] at hpeven hqeven
      omega
    have hlow := hf (Nat.lt_succ_self p)
    have hhigh := hf hnext
    have hnear := hp.nearest (p + 1)
    have hmiddle : x - f p = f q - x := by
      rcases abs_eq_abs.1 htie with h | h
      · linarith
      · linarith
    have hpos : 0 < x - f p := by linarith
    rw [abs_of_pos hpos] at hnear
    have hnearer : |x - f (p + 1)| < x - f p := by
      rw [abs_lt]
      constructor
      · linarith
      · linarith
    linarith
  exact le_antisymm (Nat.not_lt.1 (hno hq hp)) (Nat.not_lt.1 (hno hp hq))

/-! ### Quotients -/

theorem log2_bounds {n : Nat} (h : 0 < n) :
    (2 : ℚ) ^ (n.log2 : ℤ) ≤ n ∧ (n : ℚ) < 2 ^ ((n.log2 : ℤ) + 1) := by
  have hlow : 2 ^ n.log2 ≤ n := Nat.log2_self_le h.ne'
  have hhigh : n < 2 ^ (n.log2 + 1) := Nat.lt_log2_self
  constructor
  · rw [zpow_natCast]
    exact_mod_cast hlow
  · have hcast : ((n.log2 : ℤ) + 1) = ((n.log2 + 1 : Nat) : ℤ) := rfl
    rw [hcast, zpow_natCast]
    exact_mod_cast hhigh

/-- Shifting the divisor to the left divides by a power of two. -/
theorem div_shiftLeft (num den : Nat) {e : ℤ} (he : 0 ≤ e) :
    (num : ℚ) / (den <<< e.toNat : Nat) = num / den / 2 ^ e := by
  have hcast : (2 : ℚ) ^ e = 2 ^ e.toNat := by rw [← zpow_natCast, Int.toNat_of_nonneg he]
  rw [Nat.shiftLeft_eq, hcast, div_div]
  push_cast
  rfl

/-- And shifting the dividend does it if the exponent is negative. -/
theorem shiftLeft_div (num den : Nat) {e : ℤ} (he : e < 0) :
    ((num <<< (-e).toNat : Nat) : ℚ) / den = num / den / 2 ^ e := by
  have hcast : (2 : ℚ) ^ e = (2 ^ (-e).toNat)⁻¹ := by
    rw [← zpow_natCast, Int.toNat_of_nonneg (by omega), ← zpow_neg, neg_neg]
  rw [Nat.shiftLeft_eq, hcast, div_inv_eq_mul]
  push_cast
  ring

section Quotient

variable {num den : Nat} (hnum : 0 < num) (hden : 0 < den)
include hden

theorem reached_iff (e : ℤ) :
    (if 0 ≤ e then den <<< e.toNat ≤ num else den ≤ num <<< (-e).toNat) ↔
      (2 : ℚ) ^ e ≤ num / den := by
  have hpow : (0 : ℚ) < 2 ^ e := zpow_pos (by norm_num) e
  have hone : (2 : ℚ) ^ e ≤ num / den ↔ 1 ≤ (num : ℚ) / den / 2 ^ e := (one_le_div hpow).symm
  rw [hone]
  split
  · next he =>
    have hshift : (0 : ℚ) < (den <<< e.toNat : Nat) := by
      rw [Nat.shiftLeft_eq]
      positivity
    rw [← div_shiftLeft num den he, one_le_div hshift]
    exact Nat.cast_le.symm
  · next he =>
    have hpos : (0 : ℚ) < den := by exact_mod_cast hden
    rw [← shiftLeft_div num den (by omega), one_le_div hpos]
    exact Nat.cast_le.symm

include hnum

/-- The power of two that a quotient reaches; it does not reach the next one. -/
theorem quotientLog2_bounds :
    (2 : ℚ) ^ quotientLog2 num den ≤ num / den ∧
      (num : ℚ) / den < 2 ^ (quotientLog2 num den + 1) := by
  have htwo : (2 : ℚ) ≠ 0 := by norm_num
  have hpos : (0 : ℚ) < den := by exact_mod_cast hden
  obtain ⟨hnlow, hnhigh⟩ := log2_bounds hnum
  obtain ⟨hdlow, hdhigh⟩ := log2_bounds hden
  obtain ⟨guess, hguess⟩ : ∃ guess : ℤ, guess = (num.log2 : ℤ) - den.log2 := ⟨_, rfl⟩
  have hhigh : (num : ℚ) / den < 2 ^ (guess + 1) := by
    have hsplit : (2 : ℚ) ^ (guess + 1) * 2 ^ (den.log2 : ℤ) = 2 ^ ((num.log2 : ℤ) + 1) := by
      rw [← zpow_add₀ htwo, hguess]
      congr 1
      omega
    rw [div_lt_iff₀ hpos]
    calc (num : ℚ) < 2 ^ (guess + 1) * 2 ^ (den.log2 : ℤ) := by rw [hsplit]; exact hnhigh
      _ ≤ 2 ^ (guess + 1) * den := mul_le_mul_of_nonneg_left hdlow (by positivity)
  have hlow : (2 : ℚ) ^ (guess - 1) ≤ num / den := by
    have hsplit : (2 : ℚ) ^ (guess - 1) * 2 ^ ((den.log2 : ℤ) + 1) = 2 ^ (num.log2 : ℤ) := by
      rw [← zpow_add₀ htwo, hguess]
      congr 1
      omega
    rw [le_div_iff₀ hpos]
    calc (2 : ℚ) ^ (guess - 1) * den ≤ 2 ^ (guess - 1) * 2 ^ ((den.log2 : ℤ) + 1) :=
          mul_le_mul_of_nonneg_left hdhigh.le (by positivity)
      _ ≤ num := by rw [hsplit]; exact hnlow
  have hlog : quotientLog2 num den =
      if (2 : ℚ) ^ guess ≤ num / den then guess else guess - 1 := by
    unfold quotientLog2
    simp only [← hguess, reached_iff hden]
  rw [hlog]
  split
  · next hreached => exact ⟨hreached, hhigh⟩
  · next hreached =>
    refine ⟨hlow, ?_⟩
    rw [sub_add_cancel]
    exact not_le.1 hreached

/-- The pattern of a quotient is the nearest one. -/
theorem nearestPattern_nearest : Nearest magnitude (nearestPattern num den) (num / den) := by
  obtain ⟨hlow, hhigh⟩ := quotientLog2_bounds hnum hden
  have htwo : (1 : ℚ) ≤ 2 := by norm_num
  unfold nearestPattern
  generalize quotientLog2 num den = e at hlow hhigh
  -- the place of the last digit, and how many units of it the quotient is
  obtain ⟨k, hplace⟩ : ∃ k : Nat, (if -1074 ≤ e - 52 then e - 52 else -1074) = (k : ℤ) - 1074 :=
    ⟨((if -1074 ≤ e - 52 then e - 52 else -1074) + 1074).toNat, by split <;> omega⟩
  have hround : Nearest (fun n => (n : ℚ))
      (if 0 ≤ (k : ℤ) - 1074 then roundDiv num (den <<< ((k : ℤ) - 1074).toNat)
        else roundDiv (num <<< (-((k : ℤ) - 1074)).toNat) den) (num / den / unit k) := by
    rw [unit]
    split
    · next hk =>
      have hshift : 0 < den <<< ((k : ℤ) - 1074).toNat := by
        rw [Nat.shiftLeft_eq]
        positivity
      rw [← div_shiftLeft num den hk]
      exact roundDiv_nearest num hshift
    · next hk =>
      rw [← shiftLeft_div num den (by omega)]
      exact roundDiv_nearest _ hden
  have hunits : (num : ℚ) / den / unit k ≤ (2 * exponentUnit : Nat) := by
    have hplaces : e + 1 ≤ 53 + ((k : ℤ) - 1074) := by
      rw [← hplace]
      split
      · omega
      · omega
    rw [div_le_iff₀ (unit_pos k)]
    calc (num : ℚ) / den ≤ 2 ^ (e + 1) := hhigh.le
      _ ≤ 2 ^ (53 + ((k : ℤ) - 1074)) := zpow_le_zpow_right₀ htwo hplaces
      _ = (2 * exponentUnit : Nat) * unit k := by
          rw [zpow_add₀ two_ne_zero, unit]
          norm_num [exponentUnit]
  have hnormal : k = 0 ∨ (exponentUnit : ℚ) ≤ num / den / unit k := by
    by_cases he : -1074 ≤ e - 52
    · rw [if_pos he] at hplace
      refine .inr ?_
      rw [le_div_iff₀ (unit_pos k), unit, ← hplace]
      calc (exponentUnit : ℚ) * 2 ^ (e - 52) = 2 ^ (52 + (e - 52)) := by
            rw [zpow_add₀ two_ne_zero]
            norm_num [exponentUnit]
        _ = 2 ^ e := by rw [add_sub_cancel]
        _ ≤ num / den := hlow
    · rw [if_neg he] at hplace
      exact .inl (by omega)
  have hnearest := nearest_units hround (hround.le_of_le hunits) hnormal
  simp only [hplace]
  have hk : ((k : ℤ) - 1074 + 1074).toNat = k := by omega
  rw [hk]
  exact hnearest

end Quotient

/-! ### Decimals -/

/-- Nothing below half of the least number but zero is near. -/
theorem nearest_zero {x : ℚ} (hlow : 0 ≤ x) (hhigh : x ≤ unit 0 / 2) : Nearest magnitude 0 x := by
  have hzero : magnitude 0 = 0 := by
    rw [magnitude_small (by decide)]
    simp
  have hone : magnitude 1 = unit 0 := by
    rw [magnitude_small (by decide)]
    simp
  refine ⟨fun q => ?_, fun _ _ _ => ⟨0, rfl⟩⟩
  rw [hzero, sub_zero, abs_of_nonneg hlow]
  rcases Nat.eq_zero_or_pos q with rfl | hpos
  · rw [hzero, sub_zero, abs_of_nonneg hlow]
  · have hleast : magnitude 1 ≤ magnitude q := magnitude_strictMono.monotone hpos
    rw [abs_sub_comm]
    refine le_trans ?_ (le_abs_self _)
    linarith

/-- A number that no finite pattern reaches is nearest to none. -/
theorem not_nearest_of_large {x : ℚ} (h : magnitude patternEnd ≤ x) {p : Nat}
    (hp : p < patternEnd) : ¬Nearest magnitude p x := by
  intro hnearest
  have hless := magnitude_strictMono hp
  have hnear := hnearest.nearest patternEnd
  rw [abs_of_nonneg (by linarith), abs_of_nonneg (by linarith)] at hnear
  linarith

theorem magnitude_patternEnd : magnitude patternEnd = 2 ^ 1024 := by
  have hnormal := magnitude_normal (m := 0) (by decide) 2046
  have hend : (2046 + 1) * exponentUnit + 0 = patternEnd := rfl
  have hplaces : (2 : ℚ) ^ 1024 = 2 ^ 52 * 2 ^ 972 := by rw [← pow_add]
  rw [hend, unit] at hnormal
  rw [hnormal, hplaces]
  norm_num [exponentUnit]

variable {d : Decimal}

/-- A coefficient with few digits behind many zeros is small. -/
theorem magnitude_le_of_size (h : ((d.coefficient.log2 : Int) + 1) + 3 * d.exponent ≤ -1075) :
    d.magnitude ≤ unit 0 / 2 := by
  obtain ⟨n, hn⟩ : ∃ n : Nat, d.exponent = -(n : Int) := ⟨(-d.exponent).toNat, by omega⟩
  have hcoefficient : (d.coefficient : ℚ) ≤ 2 ^ ((d.coefficient.log2 : Int) + 1) := by
    have hlog : d.coefficient < 2 ^ (d.coefficient.log2 + 1) := Nat.lt_log2_self
    exact_mod_cast hlog.le
  have htenth : (10 : ℚ) ^ d.exponent ≤ 2 ^ (3 * d.exponent) := by
    have height : (8 : ℚ) ^ n ≤ 10 ^ n := pow_le_pow_left₀ (by norm_num) (by norm_num) n
    have hcube : (2 : ℚ) ^ (3 : ℤ) = 8 := by norm_num
    rw [zpow_mul, hcube, hn, zpow_neg, zpow_neg, zpow_natCast, zpow_natCast]
    exact inv_anti₀ (by positivity) height
  calc d.magnitude ≤ 2 ^ ((d.coefficient.log2 : Int) + 1) * 2 ^ (3 * d.exponent) :=
        mul_le_mul hcoefficient htenth (by positivity) (by positivity)
    _ = 2 ^ (((d.coefficient.log2 : Int) + 1) + 3 * d.exponent) := (zpow_add₀ two_ne_zero _ _).symm
    _ ≤ 2 ^ (-1075 : Int) := zpow_le_zpow_right₀ (by norm_num) h
    _ = unit 0 / 2 := by
        rw [unit, div_eq_mul_inv, ← zpow_sub_one₀ two_ne_zero]
        rfl

/-- Ten to the power of 308 passes the power of two in front of the last finite one. -/
theorem magnitude_ge_of_exponent (hc : d.coefficient ≠ 0) (h : 310 ≤ d.exponent) :
    magnitude patternEnd ≤ d.magnitude := by
  have hone : (1 : ℚ) ≤ d.coefficient := by exact_mod_cast Nat.one_le_iff_ne_zero.2 hc
  have hroot : (2 : ℚ) ^ 1023 ≤ 10 ^ 308 := by
    have hpow : ((2 : ℚ) ^ 93) ^ 11 ≤ (10 ^ 28) ^ 11 :=
      pow_le_pow_left₀ (by norm_num) (by norm_num) 11
    rwa [← pow_mul, ← pow_mul] at hpow
  rw [magnitude_patternEnd]
  calc (2 : ℚ) ^ 1024 = 2 ^ 1023 * 2 := pow_succ 2 1023
    _ ≤ 10 ^ 308 * 10 ^ 2 := mul_le_mul hroot (by norm_num) (by norm_num) (by positivity)
    _ = 10 ^ (310 : Int) := (pow_add 10 308 2).symm
    _ ≤ 10 ^ d.exponent := zpow_le_zpow_right₀ (by norm_num) h
    _ ≤ d.magnitude := le_mul_of_one_le_left (by positivity) hone

/-- A decimal as the quotient that is rounded. -/
theorem nearestPattern_decimal (hc : d.coefficient ≠ 0) :
    Nearest magnitude
      (if 0 ≤ d.exponent then nearestPattern (d.coefficient * Nat.pow 10 d.exponent.toNat) 1
        else nearestPattern d.coefficient (Nat.pow 10 (-d.exponent).toNat)) d.magnitude := by
  have hpos : 0 < d.coefficient := Nat.pos_of_ne_zero hc
  have hpow : ∀ n, 0 < Nat.pow 10 n := fun n => Nat.pow_pos (by decide)
  split
  · next he =>
    have hquotient : d.magnitude =
        ((d.coefficient * Nat.pow 10 d.exponent.toNat : Nat) : ℚ) / (1 : Nat) := by
      obtain ⟨n, hn⟩ := Int.eq_ofNat_of_zero_le he
      rw [Decimal.magnitude, hn, Int.toNat_natCast, zpow_natCast, Nat.cast_one, div_one,
        Nat.cast_mul]
      exact congrArg (fun t : ℚ => (d.coefficient : ℚ) * t) (Nat.cast_pow 10 n).symm
    rw [hquotient]
    exact nearestPattern_nearest (Nat.mul_pos hpos (hpow _)) Nat.one_pos
  · next he =>
    have hquotient : d.magnitude =
        (d.coefficient : ℚ) / (Nat.pow 10 (-d.exponent).toNat : Nat) := by
      obtain ⟨n, hn⟩ : ∃ n : Nat, d.exponent = -(n : Int) := ⟨(-d.exponent).toNat, by omega⟩
      have hnat : (-d.exponent).toNat = n := by omega
      rw [Decimal.magnitude, hnat, hn, zpow_neg, zpow_natCast, div_eq_mul_inv]
      exact congrArg (fun t : ℚ => (d.coefficient : ℚ) * t⁻¹) (Nat.cast_pow 10 n).symm
    rw [hquotient]
    exact nearestPattern_nearest hpos (hpow _)

/-- What a decimal rounds to is the nearest pattern. -/
theorem decimalPattern_nearest {p : Nat} (h : decimalPattern d = some p) :
    Nearest magnitude p d.magnitude := by
  have hquotient : d.coefficient ≠ 0 → _ := nearestPattern_decimal (d := d)
  unfold decimalPattern at h
  dsimp only at h
  split at h
  · next hzero =>
    obtain rfl := Option.some.inj h
    have hd : d.magnitude = 0 := by rw [Decimal.magnitude, hzero, Nat.cast_zero, zero_mul]
    rw [hd]
    exact nearest_zero le_rfl (half_pos (unit_pos 0)).le
  · next hc =>
    split at h
    · cases h
    split at h
    · next hsize =>
      obtain rfl := Option.some.inj h
      exact nearest_zero (by unfold Decimal.magnitude; positivity) (magnitude_le_of_size hsize)
    · have hnearest := hquotient hc
      split at h
      · next he =>
        obtain rfl := Option.some.inj h
        rwa [if_pos he] at hnearest
      · next he =>
        obtain rfl := Option.some.inj h
        rwa [if_neg he] at hnearest

/-- A decimal without a pattern is beyond every finite number. -/
theorem magnitude_ge_of_decimalPattern (h : decimalPattern d = none) :
    magnitude patternEnd ≤ d.magnitude := by
  unfold decimalPattern at h
  dsimp only at h
  split at h
  · cases h
  · next hc =>
    split at h
    · next he => exact magnitude_ge_of_exponent hc he
    · split at h
      · cases h
      · split at h
        all_goals cases h

/-- Just the numbers that are nearest to a decimal are what it rounds to. -/
theorem ofDecimal_eq_some {y : Double} :
    ofDecimal d = some y ↔ d.negative = y.negative ∧ Nearest magnitude y.pattern d.magnitude := by
  unfold ofDecimal
  split
  · next hnone =>
    refine iff_of_false nofun fun h => ?_
    exact not_nearest_of_large (magnitude_ge_of_decimalPattern hnone) y.finite h.2
  · next p hp =>
    have hnearest := decimalPattern_nearest hp
    split
    · next hfinite =>
      obtain ⟨negative, pattern, _⟩ := y
      rw [Option.some_inj, mk.injEq]
      refine and_congr_right fun _ => ⟨?_, hnearest.unique magnitude_strictMono⟩
      rintro rfl
      exact hnearest
    · next hlarge =>
      refine iff_of_false nofun fun h => hlarge ?_
      rw [hnearest.unique magnitude_strictMono h.2]
      exact y.finite

/-- Just the decimals of the grammar are read that a finite number is nearest to, each as that
number. -/
theorem read_eq_some {cs : List Char} {y : Double} :
    read cs = some y ↔ ∃ x, IsDecimal cs y.negative x ∧ Nearest magnitude y.pattern x := by
  unfold read
  rw [Option.bind_eq_some_iff]
  constructor
  · rintro ⟨d, hread, hround⟩
    obtain ⟨hnegative, hnearest⟩ := ofDecimal_eq_some.1 hround
    exact ⟨d.magnitude, readDecimal_eq_some.1 ⟨d, hread, hnegative, rfl⟩, hnearest⟩
  · rintro ⟨x, hdecimal, hnearest⟩
    obtain ⟨d, hread, hnegative, rfl⟩ := readDecimal_eq_some.2 hdecimal
    exact ⟨d, hread, ofDecimal_eq_some.2 ⟨hnegative, hnearest⟩⟩

theorem read_isSome {cs : List Char} :
    (read cs).isSome = true ↔
      ∃ (y : Double) (x : ℚ), IsDecimal cs y.negative x ∧ Nearest magnitude y.pattern x := by
  rw [Option.isSome_iff_exists]
  exact exists_congr fun _ => read_eq_some

end YamlDecode.Double
