/-
Integers are decoded exactly.

A word is tagged as an integer if a word of 64 bits holds the number that it writes, with a sign or
without one, and of the three targets that take integers each takes a part of that range.  Where any
value is welcome it is all of it; a signed target takes the numbers below 2 ^ 63; an unsigned one
takes those that are written without a minus sign, which are not quite those that are not negative,
since `-0` is written with one.

A number that a target does not take is not made to fit.  It leaves one error at its node, and that
is all that a pass writes down there.
-/
import YamlDecode.Proofs.Decode.Errors
import YamlDecode.Proofs.Tag
import YamlDecode.Proofs.Tree.Links

namespace YamlDecode

/-! ### The words of integers -/

/-- A minus sign of an integer is its sign, and without one the integer is not negative. -/
theorem IsInteger.minus {cs : List Char} {n : Int} (h : IsInteger cs n) :
    ((splitSign cs).1 = true ↔ '-' ∈ cs) ∧ ('-' ∉ cs → 0 ≤ n) := by
  cases h with
  | @mk sign digits negative hsign hdigits =>
      have hnone : '-' ∉ digits := by
        intro hmem
        cases hdigits.2 '-' hmem
      have hhead : ∀ c ∈ digits.head?, c ≠ '-' ∧ c ≠ '+' :=
        fun c hc => ne_sign_of_isDigit (hdigits.2 c (List.mem_of_mem_head? hc))
      rw [splitSign_append hsign hhead, List.mem_append, or_iff_left hnone]
      cases hsign with
      | none => exact ⟨by simp, fun _ => Int.natCast_nonneg _⟩
      | plus => exact ⟨by simp, fun _ => Int.natCast_nonneg _⟩
      | minus => exact ⟨by simp, fun hminus => absurd List.mem_cons_self hminus⟩

theorem IsInteger.unique {cs : List Char} {m n : Int} (hm : IsInteger cs m) (hn : IsInteger cs n) :
    m = n :=
  Option.some.inj ((readInteger_eq_some.2 hm).symm.trans (readInteger_eq_some.2 hn))

section Words

variable {cs : List Char} {n : Int} (h : IsInteger cs n) (low : -2 ^ 63 ≤ n) (high : n < 2 ^ 64)
include h

include low in
theorem IsInteger.readSigned_eq : readSigned cs = if n < 2 ^ 63 then some n else none := by
  rw [readSigned, readInteger_eq_some.2 h, Option.filter_some]
  refine if_congr ?_ rfl rfl
  rw [fitsSigned_iff]
  exact and_iff_right low

include high in
theorem IsInteger.readUnsigned_eq : readUnsigned cs = if '-' ∈ cs then none else some n := by
  obtain ⟨hsign, hnonneg⟩ := h.minus
  rw [readUnsigned, readInteger_eq_some.2 h, Option.filter_some]
  by_cases hminus : '-' ∈ cs
  · rw [if_pos (hsign.2 hminus), if_pos hminus]
  · have hfits : fitsUnsigned n = true := (fitsUnsigned_iff n).2 ⟨hnonneg hminus, high⟩
    rw [if_neg (mt hsign.1 hminus), if_neg hminus, if_pos hfits]

include low high in
theorem IsInteger.readWord_eq : readWord cs = some n := by
  obtain ⟨m, hm⟩ := Option.isSome_iff_exists.1 (readWord_isSome.2 ⟨n, h, low, high⟩)
  rw [hm, IsInteger.unique (readInteger_eq_some.1 (readInteger_of_readWord hm)) h]

end Words

/-! ### What becomes of a node -/

variable {t : Tree} {r : Tree.Ref t} {target : Target}

/-- What a pass makes of the node, wherever it meets it: a value, with nothing written down, or
else the one error that its type is wrong.  A tree with this root comes to the same. -/
def Tree.Ref.ComesTo (options : Options) (r : Tree.Ref t) (target : Target) : Option Json → Prop
  | some v => (∀ s, (Pass.assign options target r.view).run.run s = (some v, s)) ∧
      (r.id = 0 → decode options t target = .ok v)
  | none => (∀ s, ((Pass.assign options target r.view).run.run s).2 = s.push (misfit r target)) ∧
      (r.id = 0 → decode options t target = .error [misfit r target])

section Scalar

variable (hnull : r.tag ≠ .null) (hscalar : r.tag.isContainer = false)
include hnull hscalar

/-- A scalar fits a target or is of the wrong type for it; only the layout of a struct may be to
blame instead. -/
theorem errorsIn_ofScalar (hstruct : ∀ fields, target.shape ≠ .struct fields) (strict : Bool) :
    errorsIn strict target r.view =
      if (scalarIn target.shape r.tag r.value).isSome then [] else [misfit r target] := by
  obtain ⟨hseq, hmap⟩ := Tag.ne_of_isContainer hscalar
  rw [Tree.Ref.view_eq, errorsIn, if_neg hnull]
  cases hshape : target.shape with
  | struct fields => exact absurd hshape (hstruct fields)
  | sequence element => exact if_neg hseq
  | map key value => exact if_neg hmap
  | any => exact (if_neg hseq).trans (if_neg hmap)
  | bool | int | uint | float | string => rfl

theorem valueIn_ofScalar {v : Json} (h : scalarIn target.shape r.tag r.value = some v) :
    valueIn target r.view = v := by
  obtain ⟨hseq, hmap⟩ := Tag.ne_of_isContainer hscalar
  rw [Tree.Ref.view_eq, valueIn, if_neg hnull]
  cases hshape : target.shape with
  | struct _ | sequence _ | map _ _ =>
      rw [hshape] at h
      cases h
  | any =>
      rw [hshape] at h
      simp only [if_neg hseq, if_neg hmap, h, Option.getD_some]
  | bool | int | uint | float | string =>
      rw [hshape] at h
      simp only [h, Option.getD_some]

theorem Tree.Ref.comesTo_scalarIn (options : Options)
    (hstruct : ∀ fields, target.shape ≠ .struct fields) :
    r.ComesTo options target (scalarIn target.shape r.tag r.value) := by
  have hyields : (Pass.assign options target r.view).Yields options
      (errorsIn options.knownFields target r.view) (valueIn target r.view) :=
    Pass.assign_yields target r.view
  have herrors := errorsIn_ofScalar hnull hscalar hstruct options.knownFields
  cases h : scalarIn target.shape r.tag r.value with
  | some v =>
      rw [h] at herrors
      have hvalue := valueIn_ofScalar hnull hscalar h
      refine ⟨fun s => hyields.run_eq_iff.2 ⟨herrors, hvalue⟩, fun hid => ?_⟩
      rw [decode, Tree.root?_eq_some.2 hid]
      exact result_assign_eq_ok.2 ⟨herrors, hvalue⟩
  | none =>
      rw [h] at herrors
      have herrors : errorsIn options.knownFields target r.view = [misfit r target] := herrors
      rw [herrors] at hyields
      refine ⟨fun s => ?_, fun hid => ?_⟩
      · obtain ⟨o, hrun, -, -⟩ := hyields s
        rw [hrun, upToFirst, upToFirst, ite_self]
        exact Array.push_eq_append.symm
      · rw [decode, Tree.root?_eq_some.2 hid]
        refine (Pass.result_eq hyields).trans ?_
        rw [upToFirst, upToFirst, ite_self]
        rfl

end Scalar

/-! ### Integers in their targets -/

/-- What an integer of either word is where any value is welcome, and as a signed and an unsigned
integer. -/
theorem IsInteger.scalarIn_eq {value : String} {n : Int} (h : IsInteger value.toList n)
    (low : -2 ^ 63 ≤ n) (high : n < 2 ^ 64) :
    scalarIn .any .int value = some (.int n) ∧
      scalarIn .int .int value = (if n < 2 ^ 63 then some (.int n) else none) ∧
      scalarIn .uint .int value = if '-' ∈ value.toList then none else some (.int n) := by
  have hany : scalarIn .any .int value =
      some (((readWord value.toList).map Json.int).getD (.str value)) := rfl
  have hint : scalarIn .int .int value = (readSigned value.toList).map Json.int := rfl
  have huint : scalarIn .uint .int value = (readUnsigned value.toList).map Json.int := rfl
  rw [hany, hint, huint, h.readWord_eq low high, h.readSigned_eq low, h.readUnsigned_eq high]
  refine ⟨rfl, ?_, ?_⟩
  · rw [apply_ite (Option.map Json.int)]
    rfl
  · rw [apply_ite (Option.map Json.int)]
    rfl

/--
**Integers are decoded exactly, or refused.**

The node of a word that is tagged as an integer has one number.  It comes out as that number where
any value is welcome, as a signed integer if it is less than 2 ^ 63, and as an unsigned one if it is
written without a minus sign; and otherwise its type is wrong, which is the only error.
-/
theorem decode_integer (htag : r.tag = .int) (hplain : Tag.ofPlain r.value.toList = .int) :
    ∃ n : Int, (∀ m, IsInteger r.value.toList m ↔ m = n) ∧ (-2 ^ 63 ≤ n ∧ n < 2 ^ 64) ∧
      ∀ (options : Options) (target : Target),
        (target.shape = .any → r.ComesTo options target (some (.int n))) ∧
        (target.shape = .int →
          r.ComesTo options target (if n < 2 ^ 63 then some (.int n) else none)) ∧
        (target.shape = .uint →
          r.ComesTo options target (if '-' ∈ r.value.toList then none else some (.int n))) := by
  obtain ⟨n, hinteger, hlow, hhigh⟩ : WritesWord r.value.toList := by
    cases (Tag.ofPlain_eq_iff r.value .int).1 hplain with
    | int h => exact h
  have hhigh : n < 2 ^ 64 := Int.lt_of_le_sub_one hhigh
  obtain ⟨hany, hint, huint⟩ := hinteger.scalarIn_eq hlow hhigh
  have hnull : r.tag ≠ .null := by
    rw [htag]
    exact nofun
  have hscalar : r.tag.isContainer = false := by
    rw [htag]
    rfl
  refine ⟨n, fun m => ⟨fun hm => hm.unique hinteger, fun hm => hm ▸ hinteger⟩, ⟨hlow, hhigh⟩, ?_⟩
  intro options target
  -- The shapes differ in what they make of the text, and in nothing else.
  have hcomes : ∀ shape, target.shape = shape → (∀ fields, shape ≠ .struct fields) →
      r.ComesTo options target (scalarIn shape .int r.value) := by
    rintro shape rfl hstruct
    have hcomes := Tree.Ref.comesTo_scalarIn hnull hscalar options hstruct
    rwa [htag] at hcomes
  refine ⟨fun hshape => ?_, fun hshape => ?_, fun hshape => ?_⟩
  · exact hany ▸ hcomes .any hshape nofun
  · exact hint ▸ hcomes .int hshape nofun
  · exact huint ▸ hcomes .uint hshape nofun

/-- The least number that a signed word does not hold, with a sign and a leading zero. -/
theorem decode_integer_unsigned :
    let t := Tree.ofRose (.leaf ⟨.int, "+09223372036854775808", 1, 1⟩)
    ∃ r : Tree.Ref t, r.tag = .int ∧ Tag.ofPlain r.value.toList = .int ∧
      decode {} t .any = .ok (.int 9223372036854775808) ∧
      decode {} t .int = .error [misfit r .int] ∧
      decode {} t .uint = .ok (.int 9223372036854775808) := by
  intro t
  have htag : (⟨0, by decide⟩ : Tree.Ref t).tag = .int := rfl
  have hplain : Tag.ofPlain (⟨0, by decide⟩ : Tree.Ref t).value.toList = .int := by decide +kernel
  obtain ⟨n, hinteger, -, hall⟩ := decode_integer htag hplain
  obtain rfl := (hinteger 9223372036854775808).1 (readInteger_eq_some.1 (by decide +kernel))
  have hminus : '-' ∉ (⟨0, by decide⟩ : Tree.Ref t).value.toList := by decide +kernel
  have huint := (hall {} .uint).2.2 rfl
  rw [if_neg hminus] at huint
  exact ⟨_, htag, hplain, ((hall {} .any).1 rfl).2 rfl, ((hall {} .int).2.1 rfl).2 rfl, huint.2 rfl⟩

end YamlDecode
