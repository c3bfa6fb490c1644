/-
Rows: the lines of a document as they are written.

A row is the number of spaces that indent it and the text behind them.  Readers never see
more of a line than that, apart from its number, so `Line.Shows` is all that is needed of
a line: it says the same of a line of the document and of the rest of a line behind a dash,
which is why items that start on the line of their dash need no argument of their own.
-/
import Mathlib.Data.List.Forall2
import YamlDecode.Document
import YamlDecode.Proofs.Document.Line
import YamlDecode.Proofs.Text.Blank

namespace YamlDecode.Document

open YamlDecode.Text

/-- What indents a line, and the text that follows. -/
structure Row where
  indent : Nat
  text : List Char

/-- The line that a row is written as. -/
def Row.line (r : Row) : List Char := List.replicate r.indent ' ' ++ r.text

/-- The text of a row fits on a line, has no blanks around it, and is no comment. -/
structure Row.Sound (r : Row) : Prop where
  tight : Tight r.text
  newline : '\n' ∉ r.text
  comment : r.text.head? ≠ some '#'

/-- The line is read as the row is written. -/
structure Line.Shows (l : Line) (r : Row) : Prop where
  indent : l.indent = r.indent
  text : l.text = r.text
  content : l.ignorable = false

/-! ### A row as a line -/

theorem Row.Sound.shows {r : Row} (h : r.Sound) (number : Nat) :
    (⟨number, 0, r.line⟩ : Line).Shows r where
  indent := by
    rw [Row.line, Line.indent_spaces, takeWhile_space_eq_nil (head?_ne_space h.tight.trimStart_eq),
      List.length_nil, Nat.add_zero]
  text := by
    rw [Line.text, Row.line, dropWhile_spaces,
      dropWhile_space_eq_self (head?_ne_space h.tight.trimStart_eq)]
  content := by
    obtain ⟨c, rest, hcons, -⟩ := h.tight.first
    have hhash : c ≠ '#' := by
      have := h.comment
      rw [hcons] at this
      simpa using this
    rw [Line.ignorable, Row.line, trim_spaces, h.tight.trim_eq, hcons]
    simp [hhash]

theorem width_replicate_space (n : Nat) : width (List.replicate n ' ') = n := by
  induction n with
  | zero => rfl
  | succ n ih =>
      have hsize : ' '.utf8Size = 1 := rfl
      rw [List.replicate_succ, width_cons, ih]
      omega

/-! ### Lines of which a part has been passed -/

/-- Where a text starts that ends a line: behind the text in front of it. -/
theorem Line.Shows.passTo_offset {l : Line} {indent : Nat} {front tail : List Char}
    (h : l.Shows ⟨indent, front ++ tail⟩) : (l.passTo tail).offset = indent + width front := by
  have hindent : l.offset + (l.rest.takeWhile (· == ' ')).length = indent := h.indent
  have htext : l.rest.dropWhile (· == ' ') = front ++ tail := h.text
  have hwidth := width_spaces l.rest
  rw [htext, width_append] at hwidth
  show l.offset + width l.rest - width tail = _
  omega

/-- The rest of a line is read like a row of its own. -/
theorem Line.Shows.passTo {l : Line} {indent : Nat} {front tail : List Char}
    (h : l.Shows ⟨indent, front ++ tail⟩) (hfront : 0 < width front) (htail : Tight tail) :
    (l.passTo tail).Shows ⟨indent + width front, tail⟩ where
  indent := by
    have hspaces := takeWhile_space_eq_nil (head?_ne_space htail.trimStart_eq)
    show (l.passTo tail).offset + (tail.takeWhile (· == ' ')).length = _
    rw [h.passTo_offset, hspaces, List.length_nil, Nat.add_zero]
  text := dropWhile_space_eq_self (head?_ne_space htail.trimStart_eq)
  content := by
    have hpos : (l.passTo tail).offset ≠ 0 := by
      rw [h.passTo_offset]
      omega
    rw [Line.ignorable, beq_eq_false_iff_ne.2 hpos, Bool.false_and]

/-- What starts on the line of a dash, some spaces further than it has to. -/
theorem Line.Shows.behindDash {l : Line} {indent gap : Nat} {text : List Char}
    (h : l.Shows ⟨indent, '-' :: ' ' :: (List.replicate gap ' ' ++ text)⟩) (htext : Tight text) :
    (l.passTo text).offset = indent + 2 + gap ∧
      (l.passTo text).Shows ⟨indent + 2 + gap, text⟩ := by
  have hfront : l.Shows ⟨indent, ('-' :: ' ' :: List.replicate gap ' ') ++ text⟩ := h
  have hdash : '-'.utf8Size = 1 := rfl
  have hspace : ' '.utf8Size = 1 := rfl
  have hwidth : width ('-' :: ' ' :: List.replicate gap ' ') = 2 + gap := by
    rw [width_cons, width_cons, width_replicate_space]
    omega
  have hoffset := hfront.passTo_offset
  have hpassed := hfront.passTo (by omega) htext
  rw [hwidth, ← Nat.add_assoc] at hoffset hpassed
  exact ⟨hoffset, hpassed⟩

/-! ### The lines of rows -/

/-- A text that is not empty, holds no line feed, and ends with no carriage return. -/
structure IsLine (l : List Char) : Prop where
  newline : '\n' ∉ l
  last : ∃ front c, l = front ++ [c] ∧ c ≠ '\r'

theorem IsLine.dropReturn_eq {l : List Char} (h : IsLine l) : dropReturn l = l := by
  obtain ⟨front, c, rfl, hc⟩ := h.last
  exact dropReturn_concat hc front

theorem IsLine.ne_nil {l : List Char} (h : IsLine l) : l ≠ [] := by
  obtain ⟨front, c, rfl, -⟩ := h.last
  simp

/-- Lines joined by line feeds are these lines, also with a line feed at the end. -/
theorem lines_joinLines {l : List Char} {ls : List (List Char)} (h : ∀ m ∈ l :: ls, IsLine m) :
    lines (joinLines (l :: ls)) = l :: ls ∧ lines (joinLines (l :: ls) ++ ['\n']) = l :: ls := by
  induction ls generalizing l with
  | nil =>
      have hl := h l (by simp)
      rw [joinLines, List.intercalate_singleton]
      refine ⟨lines_of_no_newline l hl.newline hl.ne_nil, ?_⟩
      rw [lines_append_newline l [] hl.newline, hl.dropReturn_eq, lines_nil]
  | cons m ls ih =>
      have hl := h l (by simp)
      have hls : ∀ k ∈ m :: ls, IsLine k := fun k hk => h k (List.mem_cons_of_mem l hk)
      obtain ⟨hrest, hrest'⟩ := ih hls
      have hjoin : joinLines (l :: m :: ls) = l ++ '\n' :: joinLines (m :: ls) := by
        rw [joinLines, List.intercalate_cons_cons, List.append_assoc]
        rfl
      rw [hjoin, List.append_assoc, List.cons_append]
      constructor
      · rw [lines_append_newline _ _ hl.newline, hl.dropReturn_eq, hrest]
      · rw [lines_append_newline _ _ hl.newline, hl.dropReturn_eq, hrest']

theorem Row.Sound.isLine {r : Row} (h : r.Sound) : IsLine r.line where
  newline := by
    unfold Row.line
    simp [h.newline]
  last := by
    obtain ⟨front, c, hlast, hc⟩ := h.tight.last
    refine ⟨List.replicate r.indent ' ' ++ front, c, ?_, ?_⟩
    · rw [Row.line, hlast, List.append_assoc]
    · rintro rfl
      cases hc

/-- A text is written in rows, if it holds their lines, with a line feed at the end or not. -/
def WrittenIn (rows : List Row) (text : List Char) : Prop :=
  text = joinLines (rows.map Row.line) ∨ text = joinLines (rows.map Row.line) ++ ['\n']

/-- The lines of a document are the lines of the rows in which it is written. -/
theorem linesOf_written {rows : List Row} {text : List Char} (hne : rows ≠ [])
    (h : ∀ r ∈ rows, r.Sound) (htext : WrittenIn rows text) :
    linesOf text = rows.zipIdx.map fun (r, i) => ⟨i + 1, 0, r.line⟩ := by
  obtain ⟨r, rest, rfl⟩ := List.exists_cons_of_ne_nil hne
  have hlines : lines text = (r :: rest).map Row.line := by
    have hjoin : ∀ l ∈ r.line :: rest.map Row.line, IsLine l := by
      intro l hl
      obtain ⟨s, hs, rfl⟩ := List.mem_map.1 (show l ∈ (r :: rest).map Row.line from hl)
      exact (h s hs).isLine
    obtain ⟨hplain, hended⟩ := lines_joinLines hjoin
    rcases htext with rfl | rfl
    · exact hplain
    · exact hended
  rw [linesOf, hlines, List.zipIdx_map, List.map_map]
  rfl

theorem shows_linesOf {rows : List Row} {text : List Char} (hne : rows ≠ [])
    (h : ∀ r ∈ rows, r.Sound) (htext : WrittenIn rows text) :
    List.Forall₂ Line.Shows (linesOf text) rows := by
  have hfrom : ∀ start, List.Forall₂ Line.Shows
      ((rows.zipIdx start).map fun (r, i) => ⟨i + 1, 0, r.line⟩) rows := by
    clear htext hne
    induction rows with
    | nil => exact fun _ => .nil
    | cons r rows ih =>
        intro start
        have hrest := ih (fun s hs => h s (by simp [hs])) (start + 1)
        exact .cons ((h r (by simp)).shows (start + 1)) hrest
  rw [linesOf_written hne h htext]
  exact hfrom 0

/-! ### Documents -/

/-- The root is the block that starts on the first line, if that leaves no line. -/
theorem readRoot_of_block {l : Line} {ls : List Line} {node : Rose Label}
    (hcontent : l.ignorable = false) (hmark : trim l.rest ≠ ['-', '-', '-'])
    (hnode : (readers (maxDepth + 1)).block l.indent (l :: ls) = .ok (node, [])) :
    readRoot (l :: ls) = .ok (node, []) := by
  have hnomark : (trim l.rest == ['-', '-', '-']) = false := by simpa using hmark
  unfold readRoot
  simp only [skipIgnorable_cons hcontent, hnomark, if_false, Bool.false_eq_true]
  rw [hnode]
  rfl

/-- A document is what is read at the indentation of its first row, if that leaves no line. -/
theorem read_of_rows {first : Row} {rows : List Row} {text : List Char} {node : Rose Label}
    (h : ∀ r ∈ first :: rows, r.Sound) (hmark : first.text ≠ ['-', '-', '-'])
    (hcount : (first :: rows).length ≤ maxLines) (htext : WrittenIn (first :: rows) text)
    (hnode : (readers (maxDepth + 1)).block first.indent (linesOf text) = .ok (node, [])) :
    read text = .ok node := by
  have hshows := shows_linesOf (by simp) h htext
  have hlength := hshows.length_eq
  unfold read
  generalize linesOf text = ls at *
  rcases hshows with - | ⟨hfirst, hrest⟩
  next l ls =>
    have hnomark : trim l.rest ≠ ['-', '-', '-'] := by
      rwa [trim_rest, hfirst.text, (h first (by simp)).tight.trim_eq]
    rw [if_neg (by omega), readRoot_of_block hfirst.content hnomark (hfirst.indent ▸ hnode)]
    rfl

/-- A line that starts with a character that is no blank and no comment sign. -/
theorem shows_flush {c : Char} (hblank : isBlank c = false) (hhash : c ≠ '#') (number : Nat)
    (rest : List Char) : (⟨number, 0, c :: rest⟩ : Line).Shows ⟨0, c :: rest⟩ := by
  have hspace : ¬(c == ' ') = true := by
    rw [beq_iff_eq]
    rintro rfl
    cases hblank
  obtain ⟨more, htrim⟩ := exists_trim_eq hblank rest
  refine ⟨?_, List.dropWhile_cons_of_neg hspace, ?_⟩
  · show 0 + ((c :: rest).takeWhile (· == ' ')).length = 0
    rw [List.takeWhile_cons_of_neg (p := (· == ' ')) hspace]
    rfl
  · rw [Line.ignorable, htrim]
    simp [hhash]

theorem linesOf_line {text line : List Char} (h : lines text = [line]) :
    linesOf text = [⟨1, 0, line⟩] := by
  rw [linesOf, h]
  rfl

/-- A document of a single line that is not indented. -/
theorem read_of_line {text line : List Char} {node : Rose Label} (hline : lines text = [line])
    (hshows : (⟨1, 0, line⟩ : Line).Shows ⟨0, line⟩) (hmark : trim line ≠ ['-', '-', '-'])
    (hnode : (readers (maxDepth + 1)).block 0 [⟨1, 0, line⟩] = .ok (node, [])) :
    read text = .ok node := by
  have hroot : readRoot [⟨1, 0, line⟩] = .ok (node, []) :=
    readRoot_of_block hshows.content hmark (by rw [hshows.indent, hnode])
  have hcount : ¬maxLines < 1 := by decide
  unfold read
  rw [linesOf_line hline]
  simp only [List.length_singleton, hcount, if_false, hroot]
  rfl

/-- It is enough to know what the lines show. -/
theorem read_of_block {first : Row} {rows : List Row} {text : List Char} {P : Rose Label → Prop}
    (h : ∀ r ∈ first :: rows, r.Sound) (hmark : first.text ≠ ['-', '-', '-'])
    (hcount : (first :: rows).length ≤ maxLines) (htext : WrittenIn (first :: rows) text)
    (hblock : ∀ ls, List.Forall₂ Line.Shows ls (first :: rows) →
      ∃ node, (readers (maxDepth + 1)).block first.indent ls = .ok (node, []) ∧ P node) :
    ∃ node, read text = .ok node ∧ P node := by
  obtain ⟨node, hnode, hp⟩ := hblock _ (shows_linesOf (by simp) h htext)
  exact ⟨node, read_of_rows h hmark hcount htext hnode, hp⟩

end YamlDecode.Document
