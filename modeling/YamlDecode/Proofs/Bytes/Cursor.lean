/-
Lines of a source and a place among them.

A source is kept as it is, line by line, and a reader is at one of the lines.  The front of a line
may be masked, when a collection has started on the line of its dash, and is then indentation.

What such a reader has before it are the lines left of `Document/Line.lean`: `RawLine.Is` says so
of one line and `Cursor.At` of all of them.  Looking for the next line with content moves the
cursor, and lines left say nothing of that, so the cursor may be some ignorable lines ahead.
Only the line that it is at can be masked, which a block scalar relies on: it slices the lines
below at an indentation that another line has.
-/
import Mathlib.Data.List.Forall2
import YamlDecode.Proofs.Bytes.Slice
import YamlDecode.Proofs.Document.Extent

namespace YamlDecode.Bytes

open YamlDecode.Text YamlDecode.Document

/-! ### Lines -/

/-- A line of the source whose first bytes are masked. -/
structure RawLine where
  number : Nat
  raw : List Char
  masked : Nat

namespace RawLine

def indent (r : RawLine) : Checked Nat := do
  let rest ← sliceFrom r.raw r.masked
  return r.masked + (rest.takeWhile (· == ' ')).length

def text (r : RawLine) : Checked (List Char) := do sliceFrom r.raw (← r.indent)

def ignorable (r : RawLine) : Bool :=
  r.masked == 0 && match trim r.raw with
    | [] => true
    | c :: _ => c == '#'

end RawLine

/-- Spaces take a byte each. -/
theorem width_take_spaces (cs : List Char) : ∀ {n : Nat},
    n ≤ (cs.takeWhile (· == ' ')).length → width (cs.take n) = n := by
  induction cs with
  | nil =>
      intro n hn
      rw [List.take_nil]
      exact (Nat.le_zero.1 hn).symm
  | cons c cs ih =>
      intro n hn
      by_cases hc : (c == ' ') = true
      · rw [List.takeWhile_cons_of_pos (p := (· == ' ')) hc, List.length_cons] at hn
        cases n with
        | zero => rfl
        | succ n =>
            have hsize : c.utf8Size = 1 := by
              rw [beq_iff_eq.1 hc]
              rfl
            rw [List.take_succ_cons, width_cons, ih (Nat.le_of_succ_le_succ hn), hsize,
              Nat.add_comm]
      · rw [List.takeWhile_cons_of_neg (p := (· == ' ')) hc] at hn
        rw [Nat.le_zero.1 hn]
        rfl

namespace RawLine

/-- What follows the masked part of the line is what is left of it. -/
structure Is (r : RawLine) (l : Line) : Prop where
  number : r.number = l.number
  masked : r.masked = l.offset
  rest : sliceFrom r.raw r.masked = .ok l.rest

namespace Is

variable {r : RawLine} {l : Line}

theorem raw (h : r.Is l) : ∃ front, r.raw = front ++ l.rest ∧ width front = l.offset := by
  rw [← h.masked]
  exact sliceFrom_eq_ok.1 h.rest

theorem width_raw (h : r.Is l) : width r.raw = l.offset + width l.rest := by
  obtain ⟨front, hraw, hwidth⟩ := h.raw
  rw [hraw, width_append, hwidth]

theorem indent (h : r.Is l) : r.indent = .ok l.indent := by
  rw [RawLine.indent, h.rest, h.masked]
  rfl

/-- The line may be sliced between its masked part and its text, where only spaces stand. -/
theorem slice (h : r.Is l) {n : Nat} (hfrom : l.offset ≤ n) (hto : n ≤ l.indent) :
    sliceFrom r.raw n = .ok (l.rest.drop (n - l.offset)) := by
  obtain ⟨front, hraw, hwidth⟩ := h.raw
  have htake : width (l.rest.take (n - l.offset)) = n - l.offset := by
    rw [Line.indent] at hto
    exact width_take_spaces _ (by omega)
  refine sliceFrom_eq_ok.2 ⟨front ++ l.rest.take (n - l.offset), ?_, ?_⟩
  · rw [hraw, List.append_assoc, List.take_append_drop]
  · rw [width_append, htake, hwidth]
    omega

theorem sliceText (h : r.Is l) : sliceFrom r.raw l.indent = .ok l.text := by
  have hle : l.offset ≤ l.indent := Nat.le_add_right _ _
  have hdrop : l.rest.drop (l.indent - l.offset) = l.text := by
    rw [Line.indent, Nat.add_sub_cancel_left]
    nth_rewrite 2 [← List.takeWhile_append_dropWhile (p := (· == ' ')) (l := l.rest)]
    exact List.drop_left
  rw [h.slice hle (Nat.le_refl _), hdrop]

theorem text (h : r.Is l) : r.text = .ok l.text := by
  rw [RawLine.text, h.indent, ok_bind, h.sliceText]

/-- What stands in front of a text that ends the line. -/
theorem passTo (h : r.Is l) {tail : List Char} (htail : tail <:+ l.rest) :
    difference (width r.raw) (width tail) = .ok (l.passTo tail).offset := by
  have hle : width tail ≤ width l.rest := by
    obtain ⟨front, hrest⟩ := htail
    rw [← hrest, width_append]
    exact Nat.le_add_left _ _
  rw [h.width_raw, difference_eq (by omega)]
  rfl

/-- Of a line of which nothing is masked, everything is left. -/
theorem raw_eq (h : r.Is l) (hoffset : l.offset = 0) : r.raw = l.rest := by
  have hrest := h.rest
  rw [h.masked, hoffset] at hrest
  exact Except.ok.inj ((sliceFrom.eq_1 r.raw).symm.trans hrest)

theorem ignorable (h : r.Is l) : r.ignorable = l.ignorable := by
  rw [RawLine.ignorable, h.masked]
  by_cases hoffset : l.offset = 0
  · rw [h.raw_eq hoffset]
    rfl
  · rw [beq_false_of_ne hoffset, Bool.false_and,
      Line.ignorable_of_offset (Nat.pos_of_ne_zero hoffset)]

end Is

end RawLine

/-! ### Cursors -/

/-- The lines of the source, and the index of one of them or the index behind the last. -/
structure Cursor where
  lines : List RawLine
  idx : Nat

namespace Cursor

def advance (c : Cursor) : Cursor := { c with idx := c.idx + 1 }

/-- The cursor at the next line with content. -/
def skip (c : Cursor) : Checked Cursor :=
  if c.idx < c.lines.length then do
    let r ← item c.lines c.idx
    if r.ignorable then skip c.advance else return c
  else return c
termination_by c.lines.length - c.idx
decreasing_by
  show c.lines.length - (c.idx + 1) < c.lines.length - c.idx
  omega

/-- The next line with content, and the cursor there. -/
def peek (c : Cursor) : Checked (Option RawLine × Cursor) := do
  let c ← c.skip
  return (c.lines[c.idx]?, c)

/-- Masks the front of the line at the cursor. -/
def mask (c : Cursor) (bytes : Nat) : Checked Cursor := do
  let r ← item c.lines c.idx
  return { c with lines := c.lines.set c.idx { r with masked := bytes } }

/-- These lines are left from the cursor on. -/
def Left (c : Cursor) (ls : List Line) : Prop :=
  List.Forall₂ RawLine.Is (c.lines.drop c.idx) ls

/-- The cursor is where these lines are left, or ahead at the next one with content.  None but the
first is masked. -/
structure At (c : Cursor) (ls : List Line) : Prop where
  left : ∃ ls', c.Left ls' ∧ skipIgnorable ls' = skipIgnorable ls
  unmasked : ∀ l ∈ ls.tail, l.offset = 0

/-- The cursor is on a line with content, and the other lines are below. -/
structure On (c : Cursor) (l : Line) (rest : List Line) : Prop where
  left : c.Left (l :: rest)
  content : l.ignorable = false
  unmasked : ∀ n ∈ rest, n.offset = 0

theorem Left.at {c : Cursor} {ls : List Line} (h : c.Left ls) (hls : ∀ l ∈ ls, l.offset = 0) :
    c.At ls :=
  ⟨⟨ls, h, rfl⟩, fun l hl => hls l (List.mem_of_mem_tail hl)⟩

theorem Left.nil {c : Cursor} (h : c.Left []) : c.lines.length ≤ c.idx :=
  List.drop_eq_nil_iff.1 (List.forall₂_nil_right_iff.1 h)

theorem Left.cons {c : Cursor} {l : Line} {rest : List Line} (h : c.Left (l :: rest)) :
    ∃ r, c.lines[c.idx]? = some r ∧ r.Is l ∧ c.advance.Left rest := by
  obtain ⟨r, rs, his, hrest, hdrop⟩ := List.forall₂_cons_right_iff.1 h
  refine ⟨r, getElem?_of_drop hdrop, his, ?_⟩
  have htail : c.lines.drop (c.idx + 1) = rs := by
    rw [← List.drop_drop, hdrop]
    rfl
  rw [Left, advance, htail]
  exact hrest

theorem Left.skip_eq {ls : List Line} : ∀ {c : Cursor}, c.Left ls →
    ∃ c', c.skip = .ok c' ∧ c'.Left (skipIgnorable ls) := by
  induction ls with
  | nil =>
      intro c h
      refine ⟨c, ?_, h⟩
      rw [Cursor.skip, if_neg (Nat.not_lt.2 h.nil)]
      rfl
  | cons l rest ih =>
      intro c h
      obtain ⟨r, hr, his, hrest⟩ := h.cons
      have hlt : c.idx < c.lines.length := (List.getElem?_eq_some_iff.1 hr).1
      rw [Cursor.skip, if_pos hlt, item_eq hr, ok_bind, his.ignorable]
      cases hcontent : l.ignorable with
      | true =>
          rw [skipIgnorable, List.dropWhile_cons_of_pos hcontent]
          exact ih hrest
      | false =>
          rw [skipIgnorable_cons hcontent]
          exact ⟨c, rfl, h⟩

theorem At.peek_nil {c : Cursor} {ls : List Line} (h : c.At ls) (hnil : skipIgnorable ls = []) :
    ∃ c', c.peek = .ok (none, c') ∧ c'.At ls := by
  obtain ⟨ls', hleft, hskip⟩ := h.left
  obtain ⟨c', hc', hleft'⟩ := hleft.skip_eq
  rw [hskip, hnil] at hleft'
  refine ⟨c', ?_, ⟨[], hleft', hnil.symm⟩, h.unmasked⟩
  rw [peek, hc', ok_bind, List.getElem?_eq_none hleft'.nil]
  rfl

theorem At.peek_cons {c : Cursor} {ls rest : List Line} {l : Line} (h : c.At ls)
    (hnext : skipIgnorable ls = l :: rest) :
    ∃ c' r, c.peek = .ok (some r, c') ∧ r.Is l ∧ c'.On l rest ∧ c'.At ls := by
  obtain ⟨ls', hleft, hskip⟩ := h.left
  obtain ⟨c', hc', hleft'⟩ := hleft.skip_eq
  rw [hskip, hnext] at hleft'
  obtain ⟨r, hr, his, -⟩ := hleft'.cons
  have hrest : rest <:+ ls.tail := by
    have hsuffix := skipIgnorable_suffix hnext
    cases ls with
    | nil => cases hnext
    | cons first below =>
        rcases List.suffix_cons_iff.1 hsuffix with heq | hsuffix
        · exact (List.cons.inj heq).2 ▸ List.suffix_refl _
        · exact (List.suffix_cons l rest).trans hsuffix
  refine ⟨c', r, ?_, his, ⟨hleft', not_ignorable_of_skip hnext, fun n hn => ?_⟩,
    ⟨_, hleft', (skipIgnorable_next hnext).trans hnext.symm⟩, h.unmasked⟩
  · rw [peek, hc', ok_bind, hr]
    rfl
  · exact h.unmasked n (hrest.subset hn)

namespace On

variable {c : Cursor} {l : Line} {rest : List Line}

theorem at_cons (h : c.On l rest) : c.At (l :: rest) :=
  ⟨⟨_, h.left, rfl⟩, h.unmasked⟩

theorem below (h : c.On l rest) : c.advance.Left rest := by
  obtain ⟨r, -, -, hrest⟩ := h.left.cons
  exact hrest

/-- What is left of the line when its front is masked as well. -/
theorem mask (h : c.On l rest) {tail : List Char} (htail : tail <:+ l.rest)
    (hcontent : (l.passTo tail).ignorable = false) :
    ∃ c', c.mask (l.passTo tail).offset = .ok c' ∧ c'.On (l.passTo tail) rest := by
  obtain ⟨r, hr, his, hrest⟩ := h.left.cons
  obtain ⟨front, hraw, hfront⟩ := his.raw
  obtain ⟨passed, hpassed⟩ := htail
  have hwidth : l.offset + width l.rest - width tail = width (front ++ passed) := by
    rw [← hpassed, width_append, width_append, hfront]
    omega
  have hmasked : RawLine.Is { r with masked := (l.passTo tail).offset } (l.passTo tail) := by
    refine ⟨his.number, rfl, sliceFrom_eq_ok.2 ⟨front ++ passed, ?_, hwidth.symm⟩⟩
    rw [List.append_assoc, Line.passTo, hpassed, hraw]
  refine ⟨_, by rw [Cursor.mask, item_eq hr]; rfl, ?_, hcontent, h.unmasked⟩
  have hlt : c.idx < c.lines.length := (List.getElem?_eq_some_iff.1 hr).1
  rw [Left, List.drop_set, if_neg (Nat.lt_irrefl _), Nat.sub_self, List.drop_eq_getElem_cons hlt]
  exact .cons hmasked hrest

end On

end Cursor

end YamlDecode.Bytes
