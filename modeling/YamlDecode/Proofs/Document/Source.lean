/-
Places in the source.

A column counts the bytes in front of it, so a place is a line and a text in front of which
the line has that many bytes.  Going on by a text adds its width to the column
(`SourceAt.shift`), and that is the whole arithmetic of columns.

A line that is left to read stands in the source where it says it does, also where its front
part has been passed, and the lines left behind it are those below it in the source.
-/
import YamlDecode.Proofs.Document.BlockScalar
import YamlDecode.Proofs.Document.Line
import YamlDecode.Proofs.Text.Blank
import YamlDecode.Proofs.Text.Split

namespace YamlDecode.Document

open YamlDecode.Text

variable {source : List Char}

/-! ### Places -/

/-- At a line and a column of the source there is a text, which goes to the end of its line. -/
def SourceAt (source : List Char) (line column : Nat) (text : List Char) : Prop :=
  0 < line ∧ ∃ front, (lines source)[line - 1]? = some (front ++ text) ∧ column = width front + 1

namespace SourceAt

variable {line column : Nat}

theorem shift {front text : List Char} (h : SourceAt source line column (front ++ text)) :
    SourceAt source line (column + width front) text := by
  obtain ⟨hline, before, hsource, rfl⟩ := h
  refine ⟨hline, before ++ front, ?_, ?_⟩
  · rw [hsource, List.append_assoc]
  · rw [width_append]
    omega

/-- Going on behind the blanks at a place. -/
theorem skipBlanks {text behind : List Char} (h : SourceAt source line column (text ++ behind)) :
    SourceAt source line (column + blankWidth text) (trimStart text ++ behind) := by
  rw [← takeWhile_append_trimStart text, List.append_assoc] at h
  exact h.shift

end SourceAt

/-! ### Lines -/

/-- What is left of the line stands in the source behind the part that has been passed. -/
def Line.Within (source : List Char) (l : Line) : Prop :=
  SourceAt source l.number (l.offset + 1) l.rest

/-- Nothing but spaces stands in front of the text of the line. -/
def Line.Flush (l : Line) : Prop := trimStart l.text = l.text

namespace Line.Within

variable {l : Line} {tail : List Char}

theorem columnOf (h : l.Within source) (htail : tail <:+ l.rest) :
    SourceAt source l.number (l.columnOf tail) tail := by
  obtain ⟨front, hrest⟩ := htail
  rw [Within, ← hrest] at h
  have hcolumn : l.columnOf tail = l.offset + 1 + width front := by
    rw [Line.columnOf, ← hrest, width_append]
    omega
  rw [hcolumn]
  exact h.shift

theorem text (h : l.Within source) : SourceAt source l.number (l.indent + 1) l.text := by
  have hcolumn : l.columnOf l.text = l.indent + 1 := by
    have hwidth := width_spaces l.rest
    rw [Line.columnOf, indent, ← hwidth, Line.text]
    omega
  rw [← hcolumn]
  exact h.columnOf (List.dropWhile_suffix _)

theorem passTo (h : l.Within source) (htail : tail <:+ l.rest) :
    (l.passTo tail).Within source :=
  h.columnOf htail

end Line.Within

/-- A line that starts with its text is flush. -/
theorem Line.flush_of_trimStart {l : Line} (h : trimStart l.rest = l.rest) : l.Flush := by
  have htext : l.text = l.rest := dropWhile_space_eq_self (head?_ne_space h)
  rw [Flush, htext, h]

/-! ### The lines left -/

/-- No line but a blank one has another blank right behind the spaces that it starts with. -/
def SpaceIndented (source : List Char) : Prop :=
  ∀ l ∈ lines source, allBlank l = false → (l.dropWhile (· == ' ')).head?.any isBlank = false

/-- Lines that are left to read: the last ones of the source, in front of which a line may be
left in part. -/
inductive Left (source : List Char) : List Line → Prop
  | lines (n : Nat) : Left source ((linesOf source).drop n)
  | passed {l : Line} (within : l.Within source) (flush : l.Flush) :
      Left source (l :: (linesOf source).drop l.number)

theorem getElem?_linesOf {n : Nat} {l : Line} (h : (linesOf source)[n]? = some l) :
    l.number = n + 1 ∧ l.offset = 0 ∧ (lines source)[n]? = some l.rest := by
  rw [linesOf, List.getElem?_map, List.getElem?_zipIdx] at h
  obtain ⟨⟨rest, i⟩, hline, rfl⟩ := Option.map_eq_some_iff.1 h
  obtain ⟨rest', hrest, hpair⟩ := Option.map_eq_some_iff.1 hline
  cases hpair
  exact ⟨by simp, rfl, hrest⟩

/-- Nothing of a line of the source has been passed. -/
theorem offset_of_mem {l : Line} (h : l ∈ linesOf source) : l.offset = 0 := by
  obtain ⟨n, hn⟩ := List.mem_iff_getElem?.1 h
  exact (getElem?_linesOf hn).2.1

theorem getElem?_of_drop {α : Type} {xs rest : List α} {x : α} {n : Nat}
    (h : xs.drop n = x :: rest) : xs[n]? = some x := by
  rw [← List.head?_drop, h, List.head?_cons]

/-- A line of the source that has content is flush if only spaces indent. -/
theorem SpaceIndented.flush {n : Nat} {l : Line} (h : SpaceIndented source)
    (hl : (linesOf source)[n]? = some l) (hcontent : l.ignorable = false) : l.Flush := by
  obtain ⟨-, hoffset, hline⟩ := getElem?_linesOf hl
  have hblank : allBlank l.rest = false := by
    rw [← Bool.not_eq_true]
    intro hall
    rw [Line.ignorable, hoffset, trim_of_allBlank hall] at hcontent
    cases hcontent
  exact trimStart_eq_self.2 (h l.rest (List.mem_of_getElem? hline) hblank)

namespace Left

variable {l : Line} {ls rest : List Line}

theorem within (h : Left source (l :: rest)) : l.Within source := by
  generalize hls : l :: rest = ls at h
  cases h with
  | lines n =>
      obtain ⟨hnumber, hoffset, hline⟩ := getElem?_linesOf (getElem?_of_drop hls.symm)
      refine ⟨by omega, [], ?_, by simp [hoffset]⟩
      rw [hnumber, Nat.add_sub_cancel, hline, List.nil_append]
  | passed within flush =>
      cases hls
      exact within

theorem below (h : Left source (l :: rest)) : rest = (linesOf source).drop l.number := by
  generalize hls : l :: rest = ls at h
  cases h with
  | lines n =>
      obtain ⟨hnumber, -, -⟩ := getElem?_linesOf (getElem?_of_drop hls.symm)
      rw [hnumber, ← List.drop_drop, ← hls, List.drop_one, List.tail_cons]
  | passed within flush =>
      cases hls
      rfl

theorem flush (h : Left source (l :: rest)) (hsource : SpaceIndented source)
    (hcontent : l.ignorable = false) : l.Flush := by
  generalize hls : l :: rest = ls at h
  cases h with
  | lines n => exact hsource.flush (getElem?_of_drop hls.symm) hcontent
  | passed within flush =>
      cases hls
      exact flush

theorem suffix {ls' : List Line} (h : Left source ls) (hls : ls' <:+ ls) : Left source ls' := by
  have hlines : ∀ n, ls' <:+ (linesOf source).drop n → Left source ls' := by
    intro n hn
    rw [List.suffix_iff_eq_drop.1 hn, List.drop_drop]
    exact .lines _
  cases h with
  | lines n => exact hlines n hls
  | passed within flush =>
      rcases List.suffix_cons_iff.1 hls with rfl | hls
      · exact .passed within flush
      · exact hlines _ hls

/-- Passing a part of a line leaves the lines below it. -/
theorem passTo {tail : List Char} (h : Left source (l :: rest)) (htail : tail <:+ l.rest)
    (hstart : trimStart tail = tail) : Left source (l.passTo tail :: rest) := by
  rw [h.below]
  exact .passed (h.within.passTo htail) (Line.flush_of_trimStart hstart)

theorem tail (h : Left source (l :: rest)) : Left source rest :=
  h.suffix (List.suffix_cons l rest)

/-- The next line with content, and those below it. -/
theorem next (h : Left source ls) (hnext : skipIgnorable ls = l :: rest) :
    Left source (l :: rest) := by
  rw [← hnext]
  exact h.suffix (List.dropWhile_suffix _)

end Left

theorem takeBlock_suffix (parent : Nat) (ls : List Line) (indent : Option Nat)
    (done : List (List Char)) : (takeBlock parent indent done ls).2 <:+ ls := by
  rw [takeBlock_eq]
  exact List.dropWhile_suffix _

/-- A block scalar takes up lines and leaves those below. -/
theorem Left.readBlock {ls after : List Line} {header : Header} {parent : Nat} {value : List Char}
    (h : Left source ls) (hread : header.readBlock parent ls = (value, after)) :
    Left source after := by
  obtain rfl : (header.readBlock parent ls).2 = after := congrArg Prod.snd hread
  exact h.suffix (takeBlock_suffix parent ls _ _)

end YamlDecode.Document
