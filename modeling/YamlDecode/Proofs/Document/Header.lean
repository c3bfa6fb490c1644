/-
Headers of block scalars.

A header is a style and the marks behind it, and each mark sets what an earlier one of its kind has
set.  So the header that is read from marks has the last one of each kind (`withMarks`), and a
character that is no mark is an error.

The marks end at the first blank.  But the comment and the blanks at the end have been taken off
before the marks are read, so what stands behind a blank is text, and it is dropped: the value is read
as if it ended with its marks.
-/
import Mathlib.Data.List.TakeWhile
import YamlDecode.Document
import YamlDecode.Proofs.Text.Plain

namespace YamlDecode.Document

open YamlDecode.Text

/-- What a mark says of the line breaks at the end. -/
def chompingMark (c : Char) : Option Chomping :=
  if c = '+' then some .keep else if c = '-' then some .strip else none

/-- How far a mark indents the text. -/
def indentMark (c : Char) : Option Nat :=
  if '1' ≤ c ∧ c ≤ '9' then some (c.toNat - '0'.toNat) else none

def isMark (c : Char) : Bool := (chompingMark c).isSome || (indentMark c).isSome

/-- The header with more marks behind it. -/
def Header.withMarks (h : Header) (marks : List Char) : Header where
  folded := h.folded
  chomping := (marks.filterMap chompingMark).getLast?.getD h.chomping
  indent := (marks.filterMap indentMark).getLast?.or h.indent

/-- The header of a style with marks behind it. -/
def Header.ofMarks (style : Char) (marks : List Char) : Header :=
  Header.withMarks ⟨style == '>', .clip, none⟩ marks

/-- What stands behind the style of a header, without a comment. -/
def headerTail (text : List Char) : List Char := (trim (stripComment text)).tail

/-- The part of a header that is read as marks. -/
def headerMarks (text : List Char) : List Char := (headerTail text).takeWhile (!isBlank ·)

/-! ### Marks -/

theorem isBlank_of_isMark {c : Char} (h : isMark c = true) : isBlank c = false := by
  unfold isMark chompingMark indentMark at h
  by_cases hkeep : c = '+'
  · rw [hkeep]
    rfl
  by_cases hstrip : c = '-'
  · rw [hstrip]
    rfl
  by_cases hdigit : '1' ≤ c ∧ c ≤ '9'
  · have hrange : 0x31 ≤ c.toNat ∧ c.toNat ≤ 0x39 := hdigit
    rw [← Bool.not_eq_true, isBlank]
    simp only [Bool.or_eq_true, Bool.and_eq_true, decide_eq_true_eq, beq_iff_eq]
    omega
  · simp [hkeep, hstrip, hdigit] at h

namespace Header

variable (text : List Char) (h : Header)

/-- A later mark of a kind replaces an earlier one. -/
theorem withMarks_cons (c : Char) (cs : List Char) :
    h.withMarks (c :: cs) = (h.withMarks [c]).withMarks cs := by
  unfold withMarks
  simp only [List.filterMap_cons, List.filterMap_nil]
  congr 1
  · cases chompingMark c with
    | none => rfl
    | some mark => simp [List.getLast?_cons]
  · cases indentMark c with
    | none => rfl
    | some n => simp [List.getLast?_cons]

/-- Marks say that the text is indented, if they say anything of it. -/
theorem withMarks_indent_pos {h : Header} (hpos : ∀ n, h.indent = some n → 0 < n)
    {marks : List Char} : ∀ n, (h.withMarks marks).indent = some n → 0 < n := by
  intro n hn
  rcases Option.or_eq_some_iff.1 hn with hlast | ⟨-, hn⟩
  · obtain ⟨c, -, hmark⟩ := List.mem_filterMap.1 (List.mem_of_getLast? hlast)
    unfold indentMark at hmark
    split at hmark
    · next hdigit =>
      have hzero : '0'.toNat = 48 := rfl
      have hone : '1'.toNat = 49 := rfl
      have hle : '1'.toNat ≤ c.toNat := hdigit.1
      have hn := Option.some.inj hmark
      omega
    · cases hmark
  · exact hpos n hn

/-- A mark is followed by more of them, a blank is the end, and anything else an error. -/
theorem readMarks_cons (c : Char) (cs : List Char) :
    readMarks text h (c :: cs) =
      if isMark c then readMarks text (h.withMarks [c]) cs
      else if isBlank c then .ok h else .error (.blockHeader text) := by
  by_cases hkeep : c = '+'
  · subst hkeep
    rfl
  by_cases hstrip : c = '-'
  · subst hstrip
    rfl
  by_cases hdigit : '1' ≤ c ∧ c ≤ '9'
  · simp [readMarks, isMark, withMarks, chompingMark, indentMark, hkeep, hstrip, hdigit]
  · simp [readMarks, isMark, chompingMark, indentMark, hkeep, hstrip, hdigit]

/-- Only what stands in front of the first blank is read. -/
theorem readMarks_eq (cs : List Char) : ∀ h : Header, readMarks text h cs =
    if (cs.takeWhile (!isBlank ·)).all isMark then .ok (h.withMarks (cs.takeWhile (!isBlank ·)))
    else .error (.blockHeader text) := by
  induction cs with
  | nil => exact fun h => rfl
  | cons c cs ih =>
      intro h
      rw [readMarks_cons]
      by_cases hmark : isMark c = true
      · have hblank := isBlank_of_isMark hmark
        rw [if_pos hmark, ih, List.takeWhile_cons_of_pos (by simp [hblank]), List.all_cons, hmark,
          Bool.true_and, withMarks_cons h c (List.takeWhile _ cs)]
      · rw [if_neg hmark]
        by_cases hblank : isBlank c = true
        · rw [if_pos hblank, List.takeWhile_cons_of_neg (by simp [hblank])]
          rfl
        · rw [if_neg hblank, List.takeWhile_cons_of_pos (by simp [hblank]), List.all_cons,
            Bool.eq_false_iff.2 hmark]
          rfl

end Header

/-! ### Headers -/

section Style

variable {style : Char} (hstyle : style ∈ ['|', '>'])
include hstyle

theorem isBlank_style : isBlank style = false := by
  rcases List.mem_pair.1 hstyle with rfl | rfl
  all_goals rfl

theorem style_ne_hash : style ≠ '#' := by
  rcases List.mem_pair.1 hstyle with rfl | rfl
  all_goals decide

theorem cons_headerTail (cs : List Char) :
    trim (stripComment (style :: cs)) = style :: headerTail (style :: cs) := by
  have hblank := isBlank_style hstyle
  obtain ⟨more, hmore⟩ := exists_stripComment_eq hblank (style_ne_hash hstyle) cs
  obtain ⟨rest, hrest⟩ := exists_trim_eq hblank more
  rw [headerTail, hmore, hrest]
  rfl

/-- A header is read if there are only marks in front of the first blank. -/
theorem Header.read_eq (cs : List Char) :
    Header.read (style :: cs) =
      if (headerMarks (style :: cs)).all isMark then
        .ok (some (.ofMarks style (headerMarks (style :: cs))))
      else .error (.blockHeader (style :: cs)) := by
  have hmarks : ∀ h : Header, Header.readMarks (style :: cs) h (headerTail (style :: cs)) =
      if (headerMarks (style :: cs)).all isMark then .ok (h.withMarks (headerMarks (style :: cs)))
      else .error (.blockHeader (style :: cs)) :=
    Header.readMarks_eq (style :: cs) (headerTail (style :: cs))
  have hread : Header.read (style :: cs) =
      (Header.readMarks (style :: cs) ⟨style == '>', .clip, none⟩
        (headerTail (style :: cs))).map some := by
    rw [Header.read, cons_headerTail hstyle]
    rcases List.mem_pair.1 hstyle with rfl | rfl
    all_goals rfl
  rw [hread, hmarks]
  split
  all_goals rfl

/-- Marks without a blank are all that there is of a header. -/
theorem headerMarks_cons {marks : List Char} (h : ∀ c ∈ marks, isBlank c = false) :
    headerMarks (style :: marks) = marks := by
  have hall : ∀ c ∈ style :: marks, isBlank c = false :=
    List.forall_mem_cons.2 ⟨isBlank_style hstyle, h⟩
  have htight : Tight (style :: marks) := tight_of_forall (List.cons_ne_nil _ _) hall
  have hcomment : NoComment (style :: marks) := by
    refine List.Pairwise.isChain (List.pairwise_of_forall_mem_list ?_)
    intro c hc d _ hblank
    rw [hall c hc] at hblank
    cases hblank
  have hstrip := hcomment.stripComment_eq htight (by simpa using style_ne_hash hstyle)
  rw [headerMarks, headerTail, hstrip, htight.trim_eq]
  exact List.takeWhile_eq_self_iff.2 (by simpa using h)

/--
**What stands behind the marks of a header is dropped.**

A value that starts like a header is one if there are only marks up to the first blank, and an error
otherwise.  What follows the blank is no comment, and makes no difference.
-/
theorem readValue_blockHeader (cs : List Char) (inner : Readers) (compact : Bool)
    (line indent column : Nat) (ls : List Line) :
    (readValue inner compact line indent column (style :: cs) ls =
      if (headerMarks (style :: cs)).all isMark then
        let block := (Header.ofMarks style (headerMarks (style :: cs))).readBlock indent ls
        .ok (leaf .str block.1 line column, block.2)
      else .error ⟨line, .blockHeader (style :: cs)⟩) ∧
    ((headerMarks (style :: cs)).all isMark = true →
      readValue inner compact line indent column (style :: cs) ls =
        readValue inner compact line indent column (style :: headerMarks (style :: cs)) ls) := by
  have houtcome : ∀ cs : List Char,
      readValue inner compact line indent column (style :: cs) ls =
        if (headerMarks (style :: cs)).all isMark then
          let block := (Header.ofMarks style (headerMarks (style :: cs))).readBlock indent ls
          .ok (leaf .str block.1 line column, block.2)
        else .error ⟨line, .blockHeader (style :: cs)⟩ := by
    intro cs
    have hempty := isEmpty_stripComment (isBlank_style hstyle) (style_ne_hash hstyle) cs
    unfold readValue
    rw [hempty, Header.read_eq hstyle]
    by_cases hmarks : (headerMarks (style :: cs)).all isMark = true
    · rw [if_pos hmarks, if_pos hmarks]
      rfl
    · rw [if_neg hmarks, if_neg hmarks]
      rfl
  refine ⟨houtcome cs, ?_⟩
  intro hmarks
  have hself : headerMarks (style :: headerMarks (style :: cs)) = headerMarks (style :: cs) :=
    headerMarks_cons hstyle fun c hc => isBlank_of_isMark (List.all_eq_true.1 hmarks c hc)
  rw [houtcome cs, houtcome (headerMarks (style :: cs)), hself, if_pos hmarks, if_pos hmarks]

end Style

/-- The last one of two marks for the line breaks counts, and a comment may follow. -/
theorem readValue_blockHeader_marks :
    readValue noReaders true 1 0 4 "|+2- # c".toList [⟨2, 0, "   b".toList⟩] =
      .ok (leaf .str " b".toList 1 4, []) := by
  have h := @readValue_blockHeader '|' (by decide) "+2- # c".toList noReaders true 1 0 4
    [⟨2, 0, "   b".toList⟩]
  rw [if_pos (by decide)] at h
  exact h.1

/-- Text behind a header, which leaves no trace in the document. -/
theorem blockHeader_text :
    headerTail "| text".toList = " text".toList ∧ (headerTail "| text".toList).all isMark = false ∧
      parse "a: | text\n  b\n" = parse "a: |\n  b\n" ∧
      parse "a: | text\n  b\n" = .ok (.ofRose (.node ⟨.map, "", 1, 1⟩
        [.leaf ⟨.str, "a", 1, 1⟩, .leaf ⟨.str, "b\n", 1, 4⟩])) := by
  have hread : Document.read "a: | text\n  b\n".toList = .ok (.node ⟨.map, "", 1, 1⟩
      [.leaf ⟨.str, "a", 1, 1⟩, .leaf ⟨.str, "b\n", 1, 4⟩]) := rfl
  have hbare : Document.read "a: |\n  b\n".toList = .ok (.node ⟨.map, "", 1, 1⟩
      [.leaf ⟨.str, "a", 1, 1⟩, .leaf ⟨.str, "b\n", 1, 4⟩]) := rfl
  refine ⟨by decide, by decide, ?_, congrArg (Except.map Tree.ofRose) hread⟩
  rw [parse, parse, hread, hbare]

end YamlDecode.Document
