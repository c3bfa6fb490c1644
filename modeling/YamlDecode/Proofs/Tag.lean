/-
What a plain word is.

`Tag.ofPlain` tries one kind of word after the other, so what it makes of a text depends on all the
tests in front.  Here each kind is said by itself, by a list of words or by the grammar of numbers,
and only "no integer in range" stands in front of decimals, since every integer is a decimal too.
That the lists need no such remark rests on one observation: a number has a digit, and no listed
word has.

The readers of numbers that libraries have take more than the grammar.  They know words for infinity
and for an undefined number, and a decimal that is too large they read as infinite.  A text that is
read so is no number here: a look at its first characters and a test of what was read leave just the
decimals that a finite number is nearest to (`Tag.ofPlain_filtered`).
-/
import YamlDecode.Proofs.Number.Nearest
import YamlDecode.Tag

namespace YamlDecode

def nullWords : List String := ["", "~", "null", "Null", "NULL"]

def truthWords : List String := ["true", "True", "TRUE", "false", "False", "FALSE"]

/-- The text writes an integer that a word of 64 bits holds, with a sign or without one. -/
def WritesWord (cs : List Char) : Prop := ∃ n, IsInteger cs n ∧ -2 ^ 63 ≤ n ∧ n ≤ 2 ^ 64 - 1

/-- The text writes a decimal, and the number nearest to it is finite. -/
def WritesDouble (cs : List Char) : Prop :=
  ∃ (y : Double) (x : ℚ), IsDecimal cs y.negative x ∧ Double.Nearest Double.magnitude y.pattern x

/-- What a text means that stands in a document without quotes. -/
inductive Resolves (text : String) : Tag → Prop
  | null (h : text ∈ nullWords) : Resolves text .null
  | bool (h : text ∈ truthWords) : Resolves text .bool
  | int (h : WritesWord text.toList) : Resolves text .int
  | float (hword : ¬WritesWord text.toList) (h : WritesDouble text.toList) : Resolves text .float
  | str (hnull : text ∉ nullWords) (htruth : text ∉ truthWords)
      (hword : ¬WritesWord text.toList) (hdouble : ¬WritesDouble text.toList) : Resolves text .str

/-! ### The tests -/

theorem isNullWord_iff (text : String) : isNullWord text.toList = true ↔ text ∈ nullWords := by
  simp only [isNullWord, nullWords, Bool.or_eq_true, beq_iff_eq, List.mem_cons, List.not_mem_nil,
    or_false, or_assoc, ← String.toList_inj]
  rfl

theorem isTruthWord_iff (text : String) :
    (isTrueWord text.toList || isFalseWord text.toList) = true ↔ text ∈ truthWords := by
  simp [isTrueWord, isFalseWord, truthWords, ← String.toList_inj, or_assoc]

theorem readWord_isSome_iff (cs : List Char) : (readWord cs).isSome = true ↔ WritesWord cs := by
  rw [readWord_isSome]
  refine exists_congr fun n => and_congr_right fun _ => and_congr_right fun _ => ?_
  omega

/-! ### Listed words are no numbers -/

theorem IsDigits.any {cs : List Char} (h : IsDigits cs) : cs.any Char.isDigit = true := by
  obtain ⟨c, hc⟩ := List.exists_mem_of_ne_nil cs h.1
  exact List.any_eq_true.2 ⟨c, hc, h.2 c hc⟩

theorem IsBody.any {body whole fraction : List Char} (h : IsBody body whole fraction) :
    body.any Char.isDigit = true := by
  cases h with
  | whole h => exact h.any
  | point h _ => simp [h.any]
  | fraction h => simp [h.any]

theorem IsDecimal.any {cs : List Char} {negative : Bool} {x : ℚ} (h : IsDecimal cs negative x) :
    cs.any Char.isDigit = true := by
  cases h with
  | mk _ hbody _ => simp [hbody.any]

theorem IsInteger.any {cs : List Char} {n : Int} (h : IsInteger cs n) :
    cs.any Char.isDigit = true := by
  cases h with
  | mk _ hdigits => simp [hdigits.any]

theorem any_isDigit_of_mem :
    ∀ text ∈ nullWords ++ truthWords, text.toList.any Char.isDigit = false := by
  decide

theorem not_mem_nullWords_of_mem : ∀ text ∈ truthWords, text ∉ nullWords := by
  decide

/-- A text with a digit is none of the words. -/
theorem not_mem_of_any {text : String} (h : text.toList.any Char.isDigit = true) :
    text ∉ nullWords ∧ text ∉ truthWords := by
  rw [← not_or, ← List.mem_append]
  intro hmem
  rw [any_isDigit_of_mem text hmem] at h
  cases h

/-! ### What the tests make of a text -/

theorem Resolves.ofPlain_eq {text : String} {tag : Tag} (h : Resolves text tag) :
    Tag.ofPlain text.toList = tag := by
  have hnull := isNullWord_iff text
  have htruth := isTruthWord_iff text
  have hword := readWord_isSome_iff text.toList
  have hdouble : _ ↔ WritesDouble text.toList := Double.read_isSome
  unfold Tag.ofPlain
  cases h with
  | null h => rw [if_pos (hnull.2 h)]
  | bool h => rw [if_neg (mt hnull.1 (not_mem_nullWords_of_mem text h)), if_pos (htruth.2 h)]
  | int h =>
      obtain ⟨n, hn, _⟩ := id h
      obtain ⟨hnnull, hntruth⟩ := not_mem_of_any hn.any
      rw [if_neg (mt hnull.1 hnnull), if_neg (mt htruth.1 hntruth), if_pos (hword.2 h)]
  | float hnword h =>
      obtain ⟨y, x, hx, _⟩ := id h
      obtain ⟨hnnull, hntruth⟩ := not_mem_of_any hx.any
      rw [if_neg (mt hnull.1 hnnull), if_neg (mt htruth.1 hntruth), if_neg (mt hword.1 hnword),
        if_pos (hdouble.2 h)]
  | str hnnull hntruth hnword hndouble =>
      rw [if_neg (mt hnull.1 hnnull), if_neg (mt htruth.1 hntruth), if_neg (mt hword.1 hnword),
        if_neg (mt hdouble.1 hndouble)]

theorem exists_resolves (text : String) : ∃ tag, Resolves text tag := by
  by_cases hnull : text ∈ nullWords
  · exact ⟨_, .null hnull⟩
  by_cases htruth : text ∈ truthWords
  · exact ⟨_, .bool htruth⟩
  by_cases hword : WritesWord text.toList
  · exact ⟨_, .int hword⟩
  by_cases hdouble : WritesDouble text.toList
  · exact ⟨_, .float hword hdouble⟩
  · exact ⟨_, .str hnull htruth hword hdouble⟩

/-- The tag of a plain word is what the word means. -/
theorem Tag.ofPlain_eq_iff (text : String) (tag : Tag) :
    Tag.ofPlain text.toList = tag ↔ Resolves text tag := by
  constructor
  · rintro rfl
    obtain ⟨tag, hresolves⟩ := exists_resolves text
    rw [hresolves.ofPlain_eq]
    exact hresolves
  · exact Resolves.ofPlain_eq

/-- Too large for a finite number, though every part is allowed. -/
example : Tag.ofPlain ['1', 'e', '3', '0', '9'] = .str := by decide +kernel

/-! ### Readers that take more than numbers -/

/-- What a reader of floating-point numbers can make of a text. -/
inductive Datum where
  | finite (d : Double)
  | infinite (negative : Bool)
  | undefined
  deriving DecidableEq, Repr

namespace Datum

def isFinite : Datum → Bool
  | .finite _ => true
  | _ => false

/-- The reader with its words for what is no number; letters may be of either case.  A decimal that
no finite number is near to is infinite. -/
def read (cs : List Char) : Option Datum :=
  let word := String.ofList ((splitSign cs).2.map Char.toLower)
  if word = "inf" ∨ word = "infinity" then some (.infinite (splitSign cs).1)
  else if word = "nan" then some .undefined
  else (readDecimal cs).map fun d => ((Double.ofDecimal d).map finite).getD (.infinite d.negative)

end Datum

/-- The first look at a text: a digit or a point behind signs, and a digit at all. -/
def looksNumeric (cs : List Char) : Bool :=
  (cs.dropWhile fun c => c == '+' || c == '-').head?.any (fun c => c.isDigit || c == '.')
    && cs.any Char.isDigit

theorem IsBody.exists_eq_cons {body whole fraction : List Char} (h : IsBody body whole fraction) :
    ∃ c cs, body = c :: cs ∧ (c.isDigit || c == '.') = true := by
  have hdigits : ∀ {digits : List Char}, IsDigits digits →
      ∃ c cs, digits = c :: cs ∧ (c.isDigit || c == '.') = true := by
    intro digits h
    obtain ⟨c, cs, rfl⟩ := List.exists_cons_of_ne_nil h.1
    exact ⟨c, cs, rfl, by rw [h.2 c (List.mem_cons_self ..)]; rfl⟩
  cases h with
  | whole h => exact hdigits h
  | point h _ =>
      obtain ⟨c, cs, rfl, hc⟩ := hdigits h
      exact ⟨c, _, List.cons_append, hc⟩
  | fraction _ => exact ⟨'.', _, rfl, rfl⟩

theorem IsDecimal.looksNumeric {cs : List Char} {negative : Bool} {x : ℚ}
    (h : IsDecimal cs negative x) : looksNumeric cs = true := by
  rw [YamlDecode.looksNumeric, h.any, Bool.and_true]
  cases h with
  | @mk sign body tail _ _ _ _ hsign hbody _ =>
      obtain ⟨c, rest, rfl, hc⟩ := hbody.exists_eq_cons
      have hsigns : ∀ c ∈ sign, (c == '+' || c == '-') = true := by
        cases hsign with
        | none => nofun
        | plus => exact List.forall_mem_singleton.2 rfl
        | minus => exact List.forall_mem_singleton.2 rfl
      have hstop : ¬(c == '+' || c == '-') = true := by
        rintro h
        rcases Bool.or_eq_true_iff.1 h with h | h
        all_goals
          obtain rfl := eq_of_beq h
          cases hc
      rw [List.dropWhile_append_of_pos hsigns, List.cons_append, List.dropWhile_cons, if_neg hstop]
      exact hc

theorem any_splitSign {cs : List Char} (h : cs.any Char.isDigit = true) :
    (splitSign cs).2.any Char.isDigit = true := by
  obtain ⟨sign, hsign, hcs⟩ := exists_isSign cs
  have hnone : sign.any Char.isDigit = false := by
    generalize (splitSign cs).1 = negative at hsign
    cases hsign with
    | none => rfl
    | plus => rfl
    | minus => rfl
  rwa [hcs, List.any_append, hnone, Bool.false_or] at h

theorem toLower_eq_of_isDigit {c : Char} (h : c.isDigit = true) : c.toLower = c := by
  unfold Char.toLower
  split
  · grind [Char.isDigit]
  · rfl

/-- The words for what is no number have no digits. -/
theorem Datum.read_eq {cs : List Char} (h : cs.any Char.isDigit = true) :
    Datum.read cs = (readDecimal cs).map fun d =>
      ((Double.ofDecimal d).map finite).getD (.infinite d.negative) := by
  have hwords : ∀ word ∈ ["inf", "infinity", "nan"], word.toList.any Char.isDigit = false := by
    decide
  have hword : ∀ word ∈ ["inf", "infinity", "nan"],
      String.ofList ((splitSign cs).2.map Char.toLower) ≠ word := by
    rintro word hmem rfl
    have hnone := hwords _ hmem
    obtain ⟨c, hc, hdigit⟩ := List.any_eq_true.1 (any_splitSign h)
    rw [String.toList_ofList, List.any_map, List.any_eq_false] at hnone
    exact hnone c hc ((congrArg Char.isDigit (toLower_eq_of_isDigit hdigit)).trans hdigit)
  have hinf := hword "inf" (by decide)
  have hinfinity := hword "infinity" (by decide)
  have hnan := hword "nan" (by decide)
  rw [Datum.read, if_neg (not_or.2 ⟨hinf, hinfinity⟩), if_neg hnan]

/-- The first look and the test of what was read leave just the decimals that a finite number is
nearest to. -/
theorem isFinite_read (cs : List Char) :
    (looksNumeric cs && (Datum.read cs).any Datum.isFinite) = (Double.read cs).isSome := by
  by_cases hdigit : cs.any Char.isDigit = true
  · have hread : (Datum.read cs).any Datum.isFinite = (Double.read cs).isSome := by
      rw [Datum.read_eq hdigit, Double.read]
      cases readDecimal cs with
      | none => rfl
      | some d =>
          rw [Option.map_some, Option.any_some, Option.bind_some]
          cases Double.ofDecimal d with
          | none => rfl
          | some y => rfl
    rw [hread]
    by_cases hsome : (Double.read cs).isSome = true
    · obtain ⟨y, x, hx, _⟩ := Double.read_isSome.1 hsome
      rw [hx.looksNumeric, Bool.true_and]
    · rw [Bool.eq_false_iff.2 hsome, Bool.and_false]
  · have hnone : (Double.read cs).isSome = false := by
      rw [Bool.eq_false_iff]
      intro hsome
      obtain ⟨y, x, hx, _⟩ := Double.read_isSome.1 hsome
      exact hdigit hx.any
    rw [hnone, looksNumeric, Bool.eq_false_iff.2 hdigit, Bool.and_false, Bool.false_and]

/-- The tags of plain words as three readers of numbers and the first look give them. -/
theorem Tag.ofPlain_filtered (cs : List Char) :
    Tag.ofPlain cs =
      if isNullWord cs then .null
      else if isTrueWord cs || isFalseWord cs then .bool
      else if (readSigned cs).isSome || (readUnsigned cs).isSome then .int
      else if looksNumeric cs && (Datum.read cs).any Datum.isFinite then .float
      else .str := by
  rw [Tag.ofPlain, readWord, Option.isSome_or, isFinite_read]

end YamlDecode
