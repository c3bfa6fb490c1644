/-
Indentation is relative.

A reader compares indentations with one another and counts columns from them, so spaces in front
of every line move a document to the right and change nothing else.  The two runs are in step line
by line; what is needed besides is that a block scalar gives up as many more spaces as were put in
front of it, and `Deeper.drop` says that of a line.
-/
import Mathlib
import YamlDecode.Proofs.Document.Padding

namespace YamlDecode

namespace Text

/-- The loop of `indentBy`; `start` says whether a line starts here. -/
def indentFrom (n : Nat) (start : Bool) : List Char → List Char
  | [] => []
  | c :: cs => (if start then List.replicate n ' ' else []) ++ c :: indentFrom n (c == '\n') cs

/-- The text with spaces in front of every line. -/
def indentBy (n : Nat) (text : List Char) : List Char := indentFrom n true text

theorem indentFrom_append (n : Nat) {l : List Char} (hl : '\n' ∉ l) (rest : List Char) :
    indentFrom n false (l ++ rest) = l ++ indentFrom n false rest := by
  induction l with
  | nil => rfl
  | cons c l ih =>
      have hc : (c == '\n') = false := by
        rw [beq_eq_false_iff_ne]
        exact fun h => hl (h ▸ List.mem_cons_self)
      rw [List.cons_append, indentFrom, hc, ih fun h => hl (List.mem_cons_of_mem c h)]
      rfl

theorem indentBy_cons (n : Nat) (c : Char) (cs : List Char) :
    indentBy n (c :: cs) = List.replicate n ' ' ++ indentFrom n false (c :: cs) := rfl

theorem indentBy_line (n : Nat) {l : List Char} (hl : '\n' ∉ l) (rest : List Char) :
    indentBy n (l ++ '\n' :: rest) = List.replicate n ' ' ++ l ++ '\n' :: indentBy n rest := by
  have htail : indentFrom n false ('\n' :: rest) = '\n' :: indentBy n rest := rfl
  cases l with
  | nil => rw [List.nil_append, indentBy_cons, htail, List.append_nil]
  | cons c l =>
      rw [List.cons_append, indentBy_cons, ← List.cons_append, indentFrom_append n hl, htail,
        List.append_assoc]

theorem dropReturn_spaces (n : Nat) (l : List Char) :
    dropReturn (List.replicate n ' ' ++ l) = List.replicate n ' ' ++ dropReturn l := by
  rcases List.eq_nil_or_concat l with rfl | ⟨front, c, rfl⟩
  · -- The spaces themselves do not end with a carriage return.
    show dropReturn (List.replicate n ' ' ++ []) = List.replicate n ' ' ++ []
    rw [List.append_nil]
    cases n with
    | zero => rfl
    | succ n =>
        rw [List.replicate_succ']
        exact dropReturn_concat (by decide) _
  · rw [List.concat_eq_append, ← List.append_assoc]
    by_cases hc : c = '\r'
    · rw [hc, dropReturn_return, dropReturn_return]
    · rw [dropReturn_concat hc, dropReturn_concat hc, List.append_assoc]

theorem newline_not_mem_spaces (n : Nat) {l : List Char} (hl : '\n' ∉ l) :
    '\n' ∉ List.replicate n ' ' ++ l := by
  simp [hl]

/-- Spaces in front of every line are spaces in front of each of the lines. -/
theorem lines_indentBy (n : Nat) (text : List Char) :
    lines (indentBy n text) = (lines text).map (List.replicate n ' ' ++ ·) := by
  induction hn : text.length using Nat.strongRecOn generalizing text with
  | ind size ih =>
      by_cases hnewline : '\n' ∈ text
      · obtain ⟨l, rest, rfl, hl⟩ := List.eq_append_cons_of_mem hnewline
        have hshorter : rest.length < size := by
          rw [← hn, List.length_append, List.length_cons]
          omega
        have hrest := ih rest.length hshorter rest rfl
        rw [indentBy_line n hl, lines_append_newline _ _ (newline_not_mem_spaces n hl),
          lines_append_newline l rest hl, dropReturn_spaces, hrest, List.map_cons]
      · cases text with
        | nil => rfl
        | cons c cs =>
            have hline := indentFrom_append n hnewline []
            rw [List.append_nil] at hline
            rw [indentBy_cons, hline, indentFrom, List.append_nil,
              lines_of_no_newline _ (newline_not_mem_spaces n hnewline) (by simp),
              lines_of_no_newline _ hnewline (List.cons_ne_nil c cs)]
            rfl

end Text

namespace Document

open YamlDecode.Text

/-! ### Lines in step -/

/-- Columns move to the right, and lines stay where they are. -/
def Shift.right (n : Nat) : Shift := ⟨id, n⟩

/-- The line stands further to the right by `n`. -/
structure Deeper (n : Nat) (l l' : Line) : Prop where
  alike : Alike (.right n) l l'
  ignorable : l'.ignorable = l.ignorable
  /-- From a place on the same is left of both. -/
  drop : ∀ place, l'.rest.drop (place + n - l'.offset) = l.rest.drop (place - l.offset)

/-- Two runs on a document and on what it becomes by spaces in front of its lines. -/
def indenting (n : Nat) : Tandem (List Line) :=
  ⟨.right n, fun _ => False, fun _ => False, List.Forall₂ (Deeper n)⟩

variable {n : Nat} {l l' : Line} {ls ls' : List Line}

theorem Deeper.passTo (h : Deeper n l l') (hitem : isItem l.text = true) :
    Deeper n (l.passTo (Grammar.behindDash l)) (l'.passTo (Grammar.behindDash l)) where
  alike := h.alike.passTo (Grammar.behindDash_suffix_text l)
  ignorable := by
    have htail := Grammar.behindDash_suffix_tail l
    have hitem' : isItem l'.text = true := by rw [h.alike.text, hitem]
    rw [Line.ignorable_passTo hitem htail]
    refine Line.ignorable_passTo hitem' ?_
    rw [h.alike.text]
    exact htail
  drop place := by
    have hoffset := h.alike.offset_passTo (Grammar.behindDash_suffix_text l)
    have hcolumns : (Shift.right n).columns = n := rfl
    rw [hoffset, hcolumns, Nat.add_sub_add_right]
    rfl

/-- A block scalar is taken from the same lines, and gives up what indents them. -/
theorem takeBlock_deeper (parent : Nat) (h : List.Forall₂ (Deeper n) ls ls') :
    ∀ (indent : Option Nat) (done : List (List Char)), ∃ after,
      takeBlock (parent + n) (indent.map (· + n)) done ls' =
          ((takeBlock parent indent done ls).1, after) ∧
        List.Forall₂ (Deeper n) (takeBlock parent indent done ls).2 after := by
  induction h with
  | nil => exact fun indent done => ⟨[], rfl, .nil⟩
  | @cons l l' ls ls' hline hmore ih =>
      intro indent done
      have hless : ∀ m, l'.indent < m + n ↔ l.indent < m := fun m => hline.alike.indent_lt
      have hindent : l'.indent = l.indent + n := hline.alike.indent
      unfold takeBlock
      rw [hline.alike.text]
      by_cases hblank : allBlank l.text = true
      · simp only [if_pos hblank]
        exact ih indent ([] :: done)
      simp only [if_neg hblank]
      cases indent with
      | none =>
          by_cases hend : l.indent ≤ parent
          · simp only [Option.map_none, hindent, Nat.add_le_add_iff_right, if_pos hend]
            exact ⟨l' :: ls', rfl, .cons hline hmore⟩
          · simp only [Option.map_none, hindent, Nat.add_le_add_iff_right, if_neg hend, hline.drop]
            exact ih (some l.indent) _
      | some m =>
          by_cases hend : l.indent < m
          · simp only [Option.map_some, hless, if_pos hend]
            exact ⟨l' :: ls', rfl, .cons hline hmore⟩
          · simp only [Option.map_some, hless, if_neg hend, hline.drop]
            exact ih (some m) _

theorem readBlock_deeper (header : Header) (h : List.Forall₂ (Deeper n) ls ls') (parent : Nat) :
    ∃ after, header.readBlock (parent + n) ls' = ((header.readBlock parent ls).1, after) ∧
      List.Forall₂ (Deeper n) (header.readBlock parent ls).2 after := by
  obtain ⟨after, htake, hafter⟩ := takeBlock_deeper parent h (header.indent.map (parent + ·)) []
  have hindent : (header.indent.map (parent + ·)).map (· + n) =
      header.indent.map (parent + n + ·) := by
    rw [Option.map_map]
    exact congrArg (Option.map · header.indent) (funext fun m => Nat.add_right_comm parent m n)
  rw [hindent] at htake
  refine ⟨after, ?_, hafter⟩
  unfold Header.readBlock
  simp only [htake]

theorem parallel_indenting (n : Nat) : Parallel (indenting n) where
  suffix hgone := hgone.elim
  late hgone := hgone.elim
  count hgone := hgone.elim
  next := by
    intro ls ls' h
    refine .inr ?_
    induction h with
    | nil => exact .inl ⟨rfl, rfl⟩
    | @cons l l' ls ls' hline hmore ih =>
        cases hcontent : l.ignorable with
        | true =>
            rw [skipIgnorable_ignorable hcontent,
              skipIgnorable_ignorable (hline.ignorable.trans hcontent)]
            exact ih
        | false =>
            refine .inr ⟨l, l', ls, ls', skipIgnorable_cons hcontent ls,
              skipIgnorable_cons (hline.ignorable.trans hcontent) ls', hline.alike,
              .cons hline hmore, hmore, fun hitem => .cons (hline.passTo hitem) hmore, ?_⟩
            intro tail header _ _
            rw [hline.alike.indent]
            exact .inr (readBlock_deeper header hmore l.indent)

/-! ### Documents -/

/-- A line before which nothing has been passed. -/
theorem deeper_of_spaces (n number : Nat) (line : List Char) :
    Deeper n ⟨number, 0, line⟩ ⟨number, 0, List.replicate n ' ' ++ line⟩ := by
  refine ⟨⟨rfl, ?_, ?_⟩, ?_, ?_⟩
  · exact dropWhile_spaces n line
  · rw [Line.indent_spaces, Line.indent]
    show n + (line.takeWhile (· == ' ')).length = 0 + (line.takeWhile (· == ' ')).length + n
    omega
  · rw [Line.ignorable, Line.ignorable, trim_spaces]
  · intro place
    rw [Nat.sub_zero, Nat.sub_zero, Nat.add_comm, ← List.drop_drop]
    rw [List.drop_left' List.length_replicate]

theorem deeper_linesOf (n : Nat) (text : List Char) :
    List.Forall₂ (Deeper n) (linesOf text) (linesOf (indentBy n text)) := by
  rw [linesOf, linesOf, lines_indentBy, List.zipIdx_map, List.map_map, List.forall₂_map_left_iff,
    List.forall₂_map_right_iff, List.forall₂_same]
  rintro ⟨line, i⟩ -
  exact deeper_of_spaces n (i + 1) line

/-! ### Lines with content -/

/-- The lines that hold more than blanks and a comment. -/
def contentLines (text : List Char) : List (List Char) := (lines text).filter (¬Contentless ·)

/-- There is a line with content, besides a mark of the start of a document that comes first. -/
def HasContent (text : List Char) : Prop :=
  ∃ line more, contentLines text = line :: more ∧ (trim line = ['-', '-', '-'] → more ≠ [])

theorem contentLines_eq (text : List Char) :
    contentLines text = ((linesOf text).filter (!·.ignorable)).map Line.rest := by
  have hlines : lines text = (linesOf text).map Line.rest := by
    rw [linesOf, List.map_map]
    exact (List.zipIdx_map_fst 0 (lines text)).symm
  rw [contentLines, hlines, List.filter_map]
  refine congrArg (List.map Line.rest) (List.filter_congr fun l hl => ?_)
  have hoffset := offset_of_mem hl
  obtain ⟨number, offset, rest⟩ := l
  obtain rfl : offset = 0 := hoffset
  rw [Bool.eq_iff_iff]
  simp [contentless_iff number]

theorem filter_skipIgnorable (ls : List Line) :
    (skipIgnorable ls).filter (!·.ignorable) = ls.filter (!·.ignorable) := by
  induction ls with
  | nil => rfl
  | cons l ls ih =>
      cases hcontent : l.ignorable with
      | true =>
          rw [skipIgnorable_ignorable hcontent, ih,
            List.filter_cons_of_neg (by simp [hcontent])]
      | false => rw [skipIgnorable_cons hcontent]

/-- A document with content has a root. -/
theorem HasContent.rootLines_ne_nil {text : List Char} (h : HasContent text) :
    rootLines (linesOf text) ≠ [] := by
  obtain ⟨line, more, hlines, hmark⟩ := h
  rw [contentLines_eq, ← filter_skipIgnorable] at hlines
  intro hnil
  have hbehind : (behindMark (linesOf text)).filter (!·.ignorable) = [] := by
    rw [← filter_skipIgnorable, ← rootLines, hnil]
    rfl
  unfold behindMark at hbehind
  cases hskip : skipIgnorable (linesOf text) with
  | nil =>
      rw [hskip] at hlines
      cases hlines
  | cons l rest =>
      have hcontent : (!l.ignorable) = true := by rw [not_ignorable_of_skip hskip]; rfl
      have hfilter := List.filter_cons_of_pos (p := (!·.ignorable)) (l := rest) hcontent
      rw [hskip, hfilter, List.map_cons] at hlines
      obtain ⟨rfl, rfl⟩ := List.cons.inj hlines
      simp only [hskip] at hbehind
      split at hbehind
      · next hfirst => exact hmark (beq_iff_eq.1 hfirst) (congrArg (List.map Line.rest) hbehind)
      · rw [hfilter] at hbehind
        cases hbehind

theorem read_indented (n : Nat) {text : List Char} (hcontent : HasContent text) :
    Document.read (indentBy n text) =
      (Shift.right n).outcome (Shift.right n).tree (Document.read text) := by
  have hlength : (linesOf (indentBy n text)).length = (linesOf text).length :=
    (deeper_linesOf n text).length_eq.symm
  have hroot := readRoot_together (parallel_indenting n) (fun _ => id) (fun _ => id)
    (deeper_linesOf n text)
  rw [if_neg hcontent.rootLines_ne_nil] at hroot
  unfold Document.read
  simp only [hlength]
  split
  · rfl
  · exact hroot

end Document

/-- The tree with its nodes further to the right. -/
def Tree.moveRight (n : Nat) (t : Tree) : Tree :=
  t.relabel fun l => { l with column := l.column + n }

/-- **Indentation is relative**: with spaces in front of every line a document has the same nodes,
as many columns further to the right, or is refused at the same line for the same reason.  Where
the reason is an indentation, that is greater by as much. -/
theorem parse_indented (n : Nat) {text : String} (hcontent : Document.HasContent text.toList) :
    parse (String.ofList (Text.indentBy n text.toList)) = match parse text with
      | .ok t => .ok (t.moveRight n)
      | .error e => .error ⟨e.line, (Document.Shift.right n).fault e.fault⟩ := by
  unfold parse
  rw [String.toList_ofList, Document.read_indented n hcontent]
  cases Document.read text.toList with
  | error e => rfl
  | ok node => exact congrArg Except.ok (Tree.ofRose_map _ node)

/-- A block scalar that says how it is indented, and a sequence at the indentation of its key. -/
theorem parse_indented_scalar :
    ∃ t, Document.HasContent "---\na: |2\n\n    x\nb:\n- - c\n".toList ∧
      parse "---\na: |2\n\n    x\nb:\n- - c\n" = .ok t ∧
        parse "  ---\n  a: |2\n  \n      x\n  b:\n  - - c\n" = .ok (t.moveRight 2) ∧
        (t.moveRight 2).nodes.map Tree.Ref.column = [3, 3, 6, 3, 3, 5, 7] := by
  have hread : Document.read "---\na: |2\n\n    x\nb:\n- - c\n".toList = .ok (.node ⟨.map, "", 2, 1⟩
      [Document.leaf .str ['a'] 2 1, Document.leaf .str "\n  x\n".toList 2 4,
        Document.leaf .str ['b'] 5 1, .node ⟨.seq, "", 6, 1⟩ [.node ⟨.seq, "", 6, 3⟩
          [Document.leaf .str ['c'] 6 5]]]) := by cbv
  have hparse : parse "---\na: |2\n\n    x\nb:\n- - c\n" = .ok (Tree.ofRose _) :=
    congrArg (Except.map Tree.ofRose) hread
  have hcontent : Document.HasContent "---\na: |2\n\n    x\nb:\n- - c\n".toList :=
    ⟨_, _, rfl, fun _ => List.cons_ne_nil _ _⟩
  have hmoved := parse_indented 2 hcontent
  rw [hparse] at hmoved
  exact ⟨_, hcontent, hparse, hmoved, by decide +kernel⟩

end YamlDecode
