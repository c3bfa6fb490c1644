/-
Lines without content change nothing.

`Padding` is a way to add blank lines and lines that hold only a comment to a document; it also
says where each line of the document is found afterwards.  As a reader passes over such lines
wherever it looks for the next one, a document and what it becomes by padding are read in step,
and only the numbers of lines differ.

Block scalars are the exception, since blank lines and comment signs are part of their text.  A
document without the marks that open one holds none.
-/
import Mathlib
import YamlDecode.Proofs.Document.Parallel
import YamlDecode.Proofs.Tree.Relabel

namespace YamlDecode

namespace Document

open YamlDecode.Text

/-! ### Added lines -/

/-- Nothing but blanks, or a comment behind them. -/
def Contentless (line : List Char) : Prop := trim line = [] ∨ (trim line).head? = some '#'

instance : DecidablePred Contentless := fun line =>
  inferInstanceAs (Decidable (trim line = [] ∨ (trim line).head? = some '#'))

/-- A way to get lines from others by adding such as have no content. -/
inductive Padding : List (List Char) → List (List Char) → Type
  | nil : Padding [] []
  | keep {ls ls' : List (List Char)} (line : List Char) (more : Padding ls ls') :
      Padding (line :: ls) (line :: ls')
  | add {ls ls' : List (List Char)} (line : List Char) (contentless : Contentless line)
      (more : Padding ls ls') : Padding ls (line :: ls')

namespace Padding

variable {ls ls' : List (List Char)}

/-- The number of a line among those with others added; lines are counted from 1. -/
def place {ls ls' : List (List Char)} : Padding ls ls' → Nat → Nat
  | _, 0 => 0
  | .nil, n => n
  | .keep _ more, n + 1 => more.place n + 1
  | .add _ _ more, n + 1 => more.place (n + 1) + 1

@[simp] theorem place_zero (p : Padding ls ls') : p.place 0 = 0 := by
  cases p
  all_goals rfl

theorem length_le (p : Padding ls ls') : ls.length ≤ ls'.length := by
  induction p with
  | nil => exact Nat.le_refl 0
  | keep line more ih => exact Nat.succ_le_succ ih
  | add line contentless more ih => exact Nat.le_succ_of_le ih

/-- Lines are moved, columns are not. -/
def shift (p : Padding ls ls') : Shift := ⟨p.place, 0⟩

end Padding

/-! ### Lines in step -/

/-- No block scalar is opened on the line. -/
def Plain (line : List Char) : Prop := '|' ∉ line ∧ '>' ∉ line

theorem Plain.suffix {line tail : List Char} (h : Plain line) (htail : tail <:+ line) :
    Plain tail :=
  ⟨fun hmem => h.1 (htail.subset hmem), fun hmem => h.2 (htail.subset hmem)⟩

theorem Plain.header_ne {text : List Char} {header : Header} (h : Plain text) :
    Header.read text ≠ .ok (some header) := by
  have hmem : ∀ {c marks}, trim (stripComment text) = c :: marks → c ∈ text := by
    intro c marks hmarks
    obtain ⟨blanks, htrim, -⟩ := trim_append (stripComment text)
    obtain ⟨comment, hcomment⟩ := stripComment_append text
    have hstart : c ∈ trimStart (stripComment text) := by
      rw [← htrim, hmarks]
      exact List.mem_cons_self
    rw [← hcomment]
    exact List.mem_append_left _ ((List.dropWhile_suffix _).subset hstart)
  intro hread
  unfold Header.read at hread
  split at hread
  · next hmarks => exact h.1 (hmem hmarks)
  · next hmarks => exact h.2 (hmem hmarks)
  · cases hread

/-- Lines at their other places, with lines that are passed over among them. -/
inductive Aligned (m : Shift) : List Line → List Line → Prop
  | nil : Aligned m [] []
  | line {l l' : Line} {ls ls' : List Line} (alike : Alike m l l')
      (ignorable : l'.ignorable = l.ignorable) (plain : Plain l.text) (more : Aligned m ls ls') :
      Aligned m (l :: ls) (l' :: ls')
  | added {l' : Line} {ls ls' : List Line} (ignorable : l'.ignorable = true)
      (more : Aligned m ls ls') : Aligned m ls (l' :: ls')

/-- Two runs on a document and on what it becomes by padding. -/
def padding (m : Shift) : Tandem (List Line) := ⟨m, fun _ => False, fun _ => False, Aligned m⟩

theorem skipIgnorable_ignorable {l : Line} (h : l.ignorable = true) (ls : List Line) :
    skipIgnorable (l :: ls) = skipIgnorable ls :=
  List.dropWhile_cons_of_pos h

theorem Aligned.next {m : Shift} {ls ls' : List Line} (h : Aligned m ls ls') :
    skipIgnorable ls = [] ∧ skipIgnorable ls' = [] ∨
      ∃ l l' rest rest', skipIgnorable ls = l :: rest ∧ skipIgnorable ls' = l' :: rest' ∧
        Abreast (padding m) l l' rest rest' := by
  induction h with
  | nil => exact .inl ⟨rfl, rfl⟩
  | @line l l' ls ls' alike ignorable plain more ih =>
      cases hcontent : l.ignorable with
      | true =>
          rw [skipIgnorable_ignorable hcontent, skipIgnorable_ignorable (ignorable.trans hcontent)]
          exact ih
      | false =>
          refine .inr ⟨l, l', ls, ls', skipIgnorable_cons hcontent ls,
            skipIgnorable_cons (ignorable.trans hcontent) ls', alike,
            .line alike ignorable plain more, more, ?_, ?_⟩
          · intro hitem
            have htail := Grammar.behindDash_suffix_text l
            have hcontent := Line.ignorable_passTo hitem (Grammar.behindDash_suffix_tail l)
            rw [← alike.text] at hitem
            have hcontent' : (l'.passTo (Grammar.behindDash l)).ignorable = false := by
              refine Line.ignorable_passTo hitem ?_
              rw [alike.text]
              exact Grammar.behindDash_suffix_tail l
            exact .line (alike.passTo htail) (hcontent'.trans hcontent.symm)
              (plain.suffix ((List.dropWhile_suffix _).trans htail)) more
          · -- There is no block scalar that would take up what is added.
            intro tail header htail hread
            exact absurd hread (plain.suffix htail).header_ne
  | added ignorable more ih =>
      rw [skipIgnorable_ignorable ignorable]
      exact ih

theorem parallel_padding (m : Shift) : Parallel (padding m) where
  suffix hgone := hgone.elim
  late hgone := hgone.elim
  count hgone := hgone.elim
  next h := .inr h.next

/-! ### Documents -/

theorem contentless_iff {line : List Char} (n : Nat) :
    Contentless line ↔ Line.ignorable ⟨n, 0, line⟩ = true := by
  rw [Contentless, Line.ignorable]
  cases trim line with
  | nil => simp
  | cons c cs => simp

theorem Contentless.ignorable {line : List Char} (h : Contentless line) (n : Nat) :
    Line.ignorable ⟨n, 0, line⟩ = true :=
  (contentless_iff n).1 h

/-- Lines numbered on from a number. -/
def numbered (n : Nat) (ls : List (List Char)) : List Line :=
  (ls.zipIdx n).map fun (rest, i) => ⟨i + 1, 0, rest⟩

theorem Padding.aligned {ls ls' : List (List Char)} (p : Padding ls ls') {m : Shift}
    (hcolumns : m.columns = 0) {n n' : Nat} :
    (∀ line ∈ ls, Plain line) → (∀ i, m.line (n + i + 1) = n' + p.place (i + 1)) →
      Aligned m (numbered n ls) (numbered n' ls') := by
  induction p generalizing n n' with
  | nil => exact fun _ _ => .nil
  | keep line more ih =>
      intro hplain hline
      obtain ⟨hfirst, hplain⟩ := List.forall_mem_cons.1 hplain
      have halike : Alike m ⟨n + 1, 0, line⟩ ⟨n' + 1, 0, line⟩ := by
        refine ⟨(hline 0).symm ▸ ?_, rfl, by rw [hcolumns]; rfl⟩
        rw [place, place_zero]
      refine .line halike rfl (hfirst.suffix (Line.text_suffix _)) (ih hplain fun i => ?_)
      have hplace := hline (i + 1)
      rw [place] at hplace
      rw [Nat.add_right_comm n 1 i, Nat.add_assoc n i 1, hplace]
      omega
  | add line contentless more ih =>
      intro hplain hline
      refine .added (contentless.ignorable _) (ih hplain fun i => ?_)
      rw [hline i, place]
      omega

theorem read_padded {text padded : List Char} (p : Padding (lines text) (lines padded))
    (hplain : ∀ line ∈ lines text, Plain line) (hlength : (lines padded).length ≤ maxLines) :
    Document.read padded =
      p.shift.outcome (if rootLines (linesOf text) = [] then id else p.shift.tree)
        (Document.read text) := by
  have haligned : Aligned p.shift (linesOf text) (linesOf padded) :=
    p.aligned rfl hplain fun i => by rw [Nat.zero_add, Nat.zero_add]; rfl
  rw [read_of_length_le hlength, read_of_length_le (p.length_le.trans hlength)]
  exact readRoot_together (parallel_padding p.shift) (fun _ => id) (fun _ => id) haligned

end Document

/-- The tree with its nodes on other lines. -/
def Tree.renumber (place : Nat → Nat) (t : Tree) : Tree :=
  t.relabel fun l => { l with line := place l.line }

/-- **Lines without content change nothing but the numbers of the others**, in documents without
block scalars.  Where no line has content, the root is on the first one, be it an added one. -/
theorem parse_padded {text padded : String}
    (p : Document.Padding (Text.lines text.toList) (Text.lines padded.toList))
    (hplain : ∀ line ∈ Text.lines text.toList, Document.Plain line)
    (hlength : (Text.lines padded.toList).length ≤ Document.maxLines) :
    parse padded = match parse text with
      | .ok t =>
        .ok (if Document.rootLines (Document.linesOf text.toList) = [] then t
          else t.renumber p.place)
      | .error e => .error ⟨p.place e.line, e.fault⟩ := by
  unfold parse
  rw [Document.read_padded p hplain hlength]
  cases Document.read text.toList with
  | error e => exact congrArg Except.error (Document.Shift.error_eq rfl e)
  | ok node =>
      refine congrArg Except.ok ?_
      split
      · rfl
      · exact Tree.ofRose_map _ node

/-- A mapping with a sequence, with comments and blank lines on all sides. -/
theorem parse_padded_sequence :
    ∃ (t : Tree) (p : Document.Padding (Text.lines "a: 1\nb:\n- x\n".toList)
      (Text.lines "#\na: 1\n\n   # c\nb:\n\t\n- x\n#".toList)),
      parse "a: 1\nb:\n- x\n" = .ok t ∧
        parse "#\na: 1\n\n   # c\nb:\n\t\n- x\n#" = .ok (t.renumber p.place) ∧
        (List.range 4).map p.place = [0, 2, 5, 7] := by
  have hread : Document.read "a: 1\nb:\n- x\n".toList = .ok (.node ⟨.map, "", 1, 1⟩
      [Document.leaf .str ['a'] 1 1, Document.leaf .int ['1'] 1 4, Document.leaf .str ['b'] 2 1,
        .node ⟨.seq, "", 3, 1⟩ [Document.leaf .str ['x'] 3 3]]) := by cbv
  obtain ⟨t, hparse⟩ : ∃ t, parse "a: 1\nb:\n- x\n" = .ok t :=
    ⟨_, congrArg (Except.map Tree.ofRose) hread⟩
  let p : Document.Padding (Text.lines "a: 1\nb:\n- x\n".toList)
      (Text.lines "#\na: 1\n\n   # c\nb:\n\t\n- x\n#".toList) :=
    .add ['#'] (.inr rfl) (.keep "a: 1".toList (.add [] (.inl rfl)
      (.add "   # c".toList (.inr rfl) (.keep "b:".toList (.add ['\t'] (.inl rfl)
        (.keep "- x".toList (.add ['#'] (.inr rfl) .nil)))))))
  refine ⟨t, p, hparse, ?_, rfl⟩
  rw [parse_padded p (by unfold Document.Plain; decide) (by decide), hparse]
  exact congrArg Except.ok (if_neg (by decide))

end YamlDecode
