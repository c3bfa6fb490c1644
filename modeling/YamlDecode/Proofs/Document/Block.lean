/-
Values laid out on lines, read back.

Reading is an induction on the depth of the layout.  What one level needs of the level
below is `ReadsBlocks`: blocks are read up to the lines behind them.  Those lines decide
where a block ends, so each statement says what they may be, and handing back exactly
these lines is what lets the collection around it go on.
-/
import YamlDecode.Proofs.Document.BlockRows

namespace YamlDecode.Document

open YamlDecode.Text

/-! ### Readers of the level below -/

/-- The readers read what is laid out: blocks, sequences at the indentation of their key, and
values on one line.  They leave the lines behind. -/
structure ReadsBlocks (inner : Readers) (layouts : Layouts) : Prop where
  block : ∀ {indent : Nat} {v : Json} {rows : List Row} {ls after : List Line},
    layouts indent v rows → List.Forall₂ Line.Shows ls rows → Next (·.indent < indent) after →
      ∃ node, inner.block indent (ls ++ after) = .ok (node, after) ∧ Means node v
  sequence : ∀ {indent : Nat} {items : List Json} {rows : List Row} {ls after : List Line},
    layouts indent (.arr items) rows → List.Forall₂ Line.Shows ls rows →
      Next (Line.EndsSequence indent) after →
      ∃ node, inner.sequence indent (ls ++ after) = .ok (node, after) ∧ Means node (.arr items)
  inline : ∀ {v : Json}, Leaf v → width v.flow ≤ maxInlineWidth → ∀ line column,
    ∃ node, inner.inline line column v.flow = .ok node ∧ Means node v

variable {inner : Readers} {block : Layouts}

/-! ### Values behind a key or a dash -/

theorem startsBlock_lone {cs : List Char} (h : Lone cs) : startsBlock cs = false := by
  rw [startsBlock, h.item, h.colon]
  simp

/-- The characters in front of a text that mean that no value stands on its line. -/
def headMarks : List Char := ['#', '|', '>']

section Head

variable {c : Char} (hblank : isBlank c = false) (hfirst : c ∉ headMarks)
include hblank hfirst

/-- Without a mark in front, a text is no header. -/
theorem header_eq_none (cs : List Char) : Header.read (c :: cs) = .ok none := by
  simp only [headMarks, List.mem_cons, List.not_mem_nil, or_false, not_or] at hfirst
  obtain ⟨hhash, hliteral, hfolded⟩ := hfirst
  obtain ⟨more, hmore⟩ := exists_stripComment_eq hblank hhash cs
  obtain ⟨rest, hrest⟩ := exists_trim_eq hblank more
  rw [Header.read, hmore, hrest]
  split
  · next heq => exact absurd (List.cons.inj heq).1 hliteral
  · next heq => exact absurd (List.cons.inj heq).1 hfolded
  · rfl

/-- A text that is neither a comment nor a header is read as a value on one line. -/
theorem readValue_of_inline {cs : List Char} {node : Rose Label} {line column : Nat}
    (hnode : inner.inline line column (c :: cs) = .ok node) (compact : Bool) (indent : Nat)
    (ls : List Line) :
    readValue inner compact line indent column (c :: cs) ls = .ok (node, ls) := by
  have hhash : c ≠ '#' := by
    rintro rfl
    exact hfirst (by decide)
  rw [readValue, isEmpty_stripComment hblank hhash, header_eq_none hblank hfirst, hnode]
  rfl

end Head

theorem readValue_leaf (hinner : ReadsBlocks inner block) {v : Json} (h : Leaf v)
    (hwidth : width v.flow ≤ maxInlineWidth) (compact : Bool) (line indent column : Nat) (ls : List Line) :
    ∃ node, readValue inner compact line indent column v.flow ls = .ok (node, ls) ∧
      Means node v := by
  have hlone := lone_flow (plain_leaf h)
  obtain ⟨c, cs, hcons, hblank⟩ := hlone.whole.tight.first
  obtain ⟨hhash, hliteral, hfolded⟩ := hlone.first c (by rw [hcons]; rfl)
  have hfirst : c ∉ headMarks := by simp [headMarks, hhash, hliteral, hfolded]
  obtain ⟨node, hnode, hmeans⟩ := hinner.inline h hwidth line column
  rw [hcons] at hnode ⊢
  exact ⟨node, readValue_of_inline hblank hfirst hnode compact indent ls, hmeans⟩

/-- Without a value on the line, what counts is the next line. -/
theorem readValue_nil {l : Line} (h : l.ignorable = false) (compact : Bool)
    (line indent column : Nat) (ls : List Line) :
    readValue inner compact line indent column [] (l :: ls) =
      if indent < l.indent then inner.block l.indent (l :: ls)
      else if compact && l.indent == indent && isItem l.text then inner.sequence indent (l :: ls)
      else .ok (leaf .null [] line column, l :: ls) := by
  have hstrip : (stripComment []).isEmpty = true := rfl
  rw [readValue, if_pos hstrip, skipIgnorable_cons h]

theorem readValue_below (hblock : Regular block) (hinner : ReadsBlocks inner block) {v : Json}
    {deeper indent : Nat} {rows : List Row} {ls after : List Line}
    (hdeeper : indent < deeper) (h : block deeper v rows) (hls : List.Forall₂ Line.Shows ls rows)
    (hafter : Next (·.indent < deeper) after) (compact : Bool) (line column : Nat) :
    ∃ node, readValue inner compact line indent column [] (ls ++ after) = .ok (node, after) ∧
      Means node v := by
  obtain ⟨node, hnode, hmeans⟩ := hinner.block h hls hafter
  refine ⟨node, ?_, hmeans⟩
  obtain ⟨text, rest, rfl, -⟩ := hblock.head h
  rcases hls with - | ⟨hfirst, hrest⟩
  next l ls =>
    have hindent : l.indent = deeper := hfirst.indent
    rw [List.cons_append, readValue_nil hfirst.content, hindent, if_pos hdeeper]
    exact hnode

theorem readValue_level (hblock : Regular block) (hinner : ReadsBlocks inner block)
    {items : List Json} {indent : Nat} {rows : List Row} {ls after : List Line}
    (h : block indent (.arr items) rows) (hls : List.Forall₂ Line.Shows ls rows)
    (hafter : Next (Line.EndsSequence indent) after) (line column : Nat) :
    ∃ node, readValue inner true line indent column [] (ls ++ after) = .ok (node, after) ∧
      Means node (.arr items) := by
  obtain ⟨node, hnode, hmeans⟩ := hinner.sequence h hls hafter
  refine ⟨node, ?_, hmeans⟩
  obtain ⟨text, rest, rfl, hitem⟩ := hblock.headItem h
  rcases hls with - | ⟨hfirst, hrest⟩
  next l ls =>
    have hindent : l.indent = indent := hfirst.indent
    have hcompact : (true && l.indent == indent && isItem l.text) = true := by
      rw [hindent, hfirst.text, hitem, beq_self_eq_true]
      rfl
    rw [List.cons_append, readValue_nil hfirst.content, if_neg (by omega), if_pos hcompact]
    exact hnode

/-! ### Items and entries -/

/-- An item with no block behind its dash is read if its value is. -/
theorem nextItem_of_value {v : Json} {l : Line} {indent : Nat} {text tail : List Char}
    {ls after : List Line} (hl : l.Shows ⟨indent, '-' :: text⟩)
    (hitem : isItem ('-' :: text) = true) (htail : trimStart text = tail)
    (hstarts : startsBlock tail = false)
    (hvalue : ∀ column, ∃ node,
      readValue inner false l.number indent column tail ls = .ok (node, after) ∧ Means node v) :
    ∃ item, nextItem inner indent (l :: ls) = .ok (some (item, after)) ∧ HoldsItem v item := by
  have hindent : l.indent = indent := hl.indent
  have htext : l.text = '-' :: text := hl.text
  obtain ⟨node, hnode, hmeans⟩ := hvalue (l.columnOf tail)
  subst htail
  refine ⟨⟨l.number, [node]⟩, ?_, node, rfl, hmeans⟩
  rw [nextItem, skipIgnorable_cons hl.content]
  simp only [hindent, htext, hitem, if_neg (Nat.lt_irrefl indent), List.tail_cons, hstarts]
  simp only [Bool.not_true, Bool.false_eq_true, if_false, hnode]
  rfl

/-- An item with a block behind its dash is read if that block is. -/
theorem nextItem_of_block {v : Json} {l : Line} {indent : Nat} {text tail : List Char}
    {ls after : List Line} (hl : l.Shows ⟨indent, '-' :: text⟩)
    (hitem : isItem ('-' :: text) = true) (htail : trimStart text = tail)
    (hstarts : startsBlock tail = true)
    (hblock : ∃ node, inner.block (l.passTo tail).offset (l.passTo tail :: ls) = .ok (node, after) ∧
      Means node v) :
    ∃ item, nextItem inner indent (l :: ls) = .ok (some (item, after)) ∧ HoldsItem v item := by
  have hindent : l.indent = indent := hl.indent
  have htext : l.text = '-' :: text := hl.text
  obtain ⟨node, hnode, hmeans⟩ := hblock
  subst htail
  refine ⟨⟨l.number, [node]⟩, ?_, node, rfl, hmeans⟩
  rw [nextItem, skipIgnorable_cons hl.content]
  simp only [hindent, htext, hitem, if_neg (Nat.lt_irrefl indent), List.tail_cons, hstarts]
  simp only [Bool.not_true, Bool.false_eq_true, if_false, if_true, hnode]
  rfl

/-- An entry is read if its key and its value are. -/
theorem nextEntry_of_key {l : Line} {indent : Nat} {text before behind : List Char}
    {key node : Rose Label} {ls after : List Line} (hl : l.Shows ⟨indent, text⟩)
    (hitem : isItem text = false) (hcolon : blockColon text = some (before, behind))
    (hkey : readKey l.number (indent + 1) before = .ok key)
    (hnode : readValue inner true l.number indent (l.columnOf (trimStart behind))
      (trimStart behind) ls = .ok (node, after)) :
    nextEntry inner indent (l :: ls) = .ok (some (⟨l.number, [key, node]⟩, after)) := by
  have hindent : l.indent = indent := hl.indent
  have htext : l.text = text := hl.text
  rw [nextEntry, skipIgnorable_cons hl.content]
  simp only [hindent, htext, hitem, if_neg (Nat.lt_irrefl indent), hcolon, hkey]
  simp only [Bool.false_eq_true, if_false, bind, Except.bind, hnode]
  rfl

/-- An entry with a written key is read if its value is. -/
theorem nextEntry_of_value {m : String × Json} {l : Line} {indent : Nat} {text tail : List Char}
    {ls after : List Line} (hl : l.Shows ⟨indent, Quoted.write m.1.toList ++ ':' :: text⟩)
    (hblank : atBlank text = true) (htail : trimStart text = tail)
    (hvalue : ∀ column, ∃ node,
      readValue inner true l.number indent column tail ls = .ok (node, after) ∧ Means node m.2) :
    ∃ item, nextEntry inner indent (l :: ls) = .ok (some (item, after)) ∧ HoldsMember m item := by
  obtain ⟨node, hnode, hmeans⟩ := hvalue (l.columnOf tail)
  subst htail
  refine ⟨_, ?_, holdsMember_leaf hmeans l.number l.number (indent + 1)⟩
  exact nextEntry_of_key hl rfl (blockColon_write _ hblank) (readKey_write _ _ _) hnode

/-- Rows of an item are read as that item, if no line behind them is indented deeper. -/
theorem nextItem_of_rows (hblock : Regular block) (hinner : ReadsBlocks inner block) {v : Json}
    {indent : Nat} {rows : List Row} {ls after : List Line} (h : ItemRows block indent v rows)
    (hls : List.Forall₂ Line.Shows ls rows) (hafter : Next (·.indent ≤ indent) after) :
    ∃ item, nextItem inner indent (ls ++ after) = .ok (some (item, after)) ∧ HoldsItem v item := by
  rcases h with ⟨hleaf, hwidth⟩ | ⟨hdeeper, h⟩ | @⟨first, rows, gap, h⟩
  · rcases hls with - | ⟨hfirst, hrest⟩
    rcases hrest with - | -
    have hlone := lone_flow (plain_leaf hleaf)
    have htail : trimStart (' ' :: v.flow) = v.flow := hlone.whole.tight.trimStart_eq
    exact nextItem_of_value hfirst rfl htail (startsBlock_lone hlone) fun column =>
      readValue_leaf hinner hleaf hwidth false _ indent column after
  · rcases hls with - | ⟨hfirst, hrest⟩
    have hbelow := hafter.mono fun l hl => Nat.lt_of_le_of_lt hl hdeeper
    exact nextItem_of_value hfirst rfl trimStart_nil rfl fun column =>
      readValue_below hblock hinner hdeeper h hrest hbelow false _ column
  · rcases hls with - | ⟨hfirst, hrest⟩
    have htight : Tight first := (hblock.sound h _ List.mem_cons_self).tight
    have hstarts : startsBlock first = true := by
      obtain ⟨text, rest, hrows, htext⟩ := hblock.head h
      cases hrows
      exact htext
    have htail : trimStart (' ' :: (List.replicate gap ' ' ++ first)) = first :=
      (trimStart_spaces (gap + 1) first).trans htight.trimStart_eq
    -- The rest of the line takes the place of the first row of the block.
    obtain ⟨hoffset, hpassed⟩ := hfirst.behindDash htight
    have hbelow : Next (·.indent < indent + 2 + gap) after := hafter.mono fun l hl => by omega
    refine nextItem_of_block hfirst rfl htail hstarts ?_
    rw [hoffset]
    exact hinner.block h (.cons hpassed hrest) hbelow

/-- Rows of an entry are read as that entry, if no line behind them is indented deeper or
belongs to a sequence at the same indentation. -/
theorem nextEntry_of_rows (hblock : Regular block) (hinner : ReadsBlocks inner block)
    {m : String × Json} {indent : Nat} {rows : List Row} {ls after : List Line}
    (h : EntryRows block indent m rows) (hls : List.Forall₂ Line.Shows ls rows)
    (hafter : Next (Line.EndsSequence indent) after) :
    ∃ item, nextEntry inner indent (ls ++ after) = .ok (some (item, after)) ∧
      HoldsMember m item := by
  rcases h with ⟨hleaf, hwidth⟩ | @⟨name, v, deeper, rows, hdeeper, h⟩ | h
  · rcases hls with - | ⟨hfirst, hrest⟩
    rcases hrest with - | -
    next name v l =>
      have htail : trimStart (' ' :: v.flow) = v.flow :=
        (lone_flow (plain_leaf hleaf)).whole.tight.trimStart_eq
      exact nextEntry_of_value (m := (name, v)) hfirst rfl htail fun column =>
        readValue_leaf hinner hleaf hwidth true _ indent column after
  · rcases hls with - | ⟨hfirst, hrest⟩
    have hbelow : Next (·.indent < deeper) after := hafter.mono fun l hl => by
      rcases hl with hl | hl <;> omega
    exact nextEntry_of_value (m := (name, v)) hfirst rfl trimStart_nil fun column =>
      readValue_below hblock hinner hdeeper h hrest hbelow true _ column
  · rcases hls with - | ⟨hfirst, hrest⟩
    next name items rows l ls =>
      exact nextEntry_of_value (m := (name, .arr items)) hfirst rfl trimStart_nil fun column =>
        readValue_level hblock hinner h hrest hafter _ column

/-! ### Collections -/

theorem shows_append {ls : List Line} {rows rest : List Row}
    (h : List.Forall₂ Line.Shows ls (rows ++ rest)) :
    ∃ front back, ls = front ++ back ∧ List.Forall₂ Line.Shows front rows ∧
      List.Forall₂ Line.Shows back rest :=
  ⟨ls.take rows.length, ls.drop rows.length, (List.take_append_drop _ _).symm,
    List.forall₂_take_append _ _ _ h, List.forall₂_drop_append _ _ _ h⟩

/-- What is next before further items is one of them or what is next behind them. -/
theorem next_of_rows {α : Type} {rowsOf : α → List Row → Prop} {p : Line → Prop} {xs : List α}
    {rows : List Row} {ls after : List Line}
    (hfirst : ∀ x rows, rowsOf x rows → ∃ r rest, rows = r :: rest ∧ ∀ l : Line, l.Shows r → p l)
    (h : RowsOf rowsOf xs rows) (hls : List.Forall₂ Line.Shows ls rows) (hafter : Next p after) :
    Next p (ls ++ after) := by
  rcases h with - | ⟨first, next⟩
  · rcases hls with - | -
    exact hafter
  · obtain ⟨r, rest, rfl, hr⟩ := hfirst _ _ first
    rcases hls with - | ⟨hl, -⟩
    exact next_cons hl.content (hr _ hl) _

theorem nextItem_end {indent : Nat} {after : List Line} (h : Next (Line.EndsSequence indent) after) :
    nextItem inner indent after = .ok none := by
  unfold nextItem
  split
  · rfl
  · next l rest hskip =>
    rcases h l rest hskip with hlt | ⟨heq, hitem⟩
    · rw [if_pos hlt]
    · rw [if_neg (by omega), if_neg (by omega), if_pos (by rw [hitem]; rfl)]

theorem nextEntry_end {indent : Nat} {after : List Line} (h : Next (·.indent < indent) after) :
    nextEntry inner indent after = .ok none := by
  unfold nextEntry
  split
  · rfl
  · next l rest hskip => rw [if_pos (h l rest hskip)]

theorem reads_itemRows (hblock : Regular block) (hinner : ReadsBlocks inner block) {indent : Nat}
    {items : List Json} {rows : List Row} {after : List Line}
    (h : RowsOf (ItemRows block indent) items rows)
    (hafter : Next (Line.EndsSequence indent) after) :
    ∀ ls, List.Forall₂ Line.Shows ls rows →
      Reads (nextItem inner indent) HoldsItem (ls ++ after) items after := by
  induction h with
  | nil =>
      intro ls hls
      rcases hls with - | -
      exact .nil (nextItem_end hafter)
  | cons first next ih =>
      intro ls hls
      obtain ⟨front, back, rfl, hfront, hback⟩ := shows_append hls
      have hbehind : Next (·.indent ≤ indent) (back ++ after) := by
        refine next_of_rows ?_ next hback (hafter.mono fun l hl => by rcases hl with hl | hl <;> omega)
        intro v rows hrows
        obtain ⟨text, rest, rfl, -⟩ := hrows.head
        exact ⟨_, rest, rfl, fun l hl => Nat.le_of_eq hl.indent⟩
      obtain ⟨item, hitem, hholds⟩ := nextItem_of_rows hblock hinner first hfront hbehind
      rw [List.append_assoc]
      exact .cons hitem hholds (ih back hback)

theorem reads_entryRows (hblock : Regular block) (hinner : ReadsBlocks inner block) {indent : Nat}
    {members : List (String × Json)} {rows : List Row} {after : List Line}
    (h : RowsOf (EntryRows block indent) members rows)
    (hafter : Next (·.indent < indent) after) :
    ∀ ls, List.Forall₂ Line.Shows ls rows →
      Reads (nextEntry inner indent) HoldsMember (ls ++ after) members after := by
  induction h with
  | nil =>
      intro ls hls
      rcases hls with - | -
      exact .nil (nextEntry_end hafter)
  | cons first next ih =>
      intro ls hls
      obtain ⟨front, back, rfl, hfront, hback⟩ := shows_append hls
      have hbehind : Next (Line.EndsSequence indent) (back ++ after) := by
        refine next_of_rows ?_ next hback (hafter.mono fun l hl => Or.inl hl)
        intro m rows hrows
        obtain ⟨tail, rest, rfl, -⟩ := hrows.head
        refine ⟨_, rest, rfl, fun l hl => Or.inr ⟨hl.indent, ?_⟩⟩
        rw [hl.text]
        rfl
      obtain ⟨item, hitem, hholds⟩ := nextEntry_of_rows hblock hinner first hfront hbehind
      rw [List.append_assoc]
      exact .cons hitem hholds (ih back hback)

theorem readSequence_of_items {indent : Nat} {ls rest : List Line} {nodes : List (Rose Label)}
    (h : readItems .blockSequence (nextItem inner indent) maxItems [] ls = .ok (nodes, rest)) :
    ∃ line, readSequence inner indent ls = .ok (.node ⟨.seq, "", line, indent + 1⟩ nodes, rest) := by
  unfold readSequence
  rw [h]
  exact ⟨_, rfl⟩

theorem readMapping_of_items {indent : Nat} {ls rest : List Line} {nodes : List (Rose Label)}
    (h : readItems .blockMapping (nextEntry inner indent) maxItems [] ls = .ok (nodes, rest)) :
    ∃ line, readMapping inner indent ls = .ok (.node ⟨.map, "", line, indent + 1⟩ nodes, rest) := by
  unfold readMapping
  rw [h]
  exact ⟨_, rfl⟩

theorem readSequence_of_rows (hblock : Regular block) (hinner : ReadsBlocks inner block)
    {indent : Nat} {items : List Json} {rows : List Row} {ls after : List Line}
    (h : CollectionRows block indent (.arr items) rows) (hls : List.Forall₂ Line.Shows ls rows)
    (hafter : Next (Line.EndsSequence indent) after) :
    ∃ node, readSequence inner indent (ls ++ after) = .ok (node, after) ∧
      Means node (.arr items) := by
  rcases h with ⟨-, count, each⟩
  obtain ⟨nodes, hholds, hread⟩ := (reads_itemRows hblock hinner each hafter ls hls).readItems
  obtain ⟨line, hnode⟩ := readSequence_of_items (hread .blockSequence maxItems [] count)
  exact ⟨_, hnode, rfl, meansItems_of_holds hholds⟩

theorem readMapping_of_rows (hblock : Regular block) (hinner : ReadsBlocks inner block)
    {indent : Nat} {members : List (String × Json)} {rows : List Row} {ls after : List Line}
    (h : CollectionRows block indent (.obj members) rows) (hls : List.Forall₂ Line.Shows ls rows)
    (hafter : Next (·.indent < indent) after) :
    ∃ node, readMapping inner indent (ls ++ after) = .ok (node, after) ∧
      Means node (.obj members) := by
  rcases h with - | ⟨-, count, names, each⟩
  obtain ⟨nodes, hholds, hread⟩ := (reads_entryRows hblock hinner each hafter ls hls).readItems
  obtain ⟨line, hnode⟩ := readMapping_of_items (hread .blockMapping maxItems [] count)
  exact ⟨_, hnode, rfl, names, meansMembers_of_holds hholds⟩

/-- What starts on a line is told by the text of the line. -/
theorem readBlock_cons {indent : Nat} {text : List Char} {l : Line} (hl : l.Shows ⟨indent, text⟩)
    (ls : List Line) :
    readBlock inner indent (l :: ls) =
      if isItem text then readSequence inner indent (l :: ls)
      else if (blockColon text).isSome then readMapping inner indent (l :: ls)
      else (inner.inline l.number (indent + 1) text).map fun node => (node, ls) := by
  have hindent : ¬l.indent ≠ indent := not_not_intro hl.indent
  rw [readBlock, skipIgnorable_cons hl.content]
  simp only [if_neg hindent, hl.text]

/-- A document of a single line that starts with a bracket is what is read on that line. -/
theorem read_of_bracket {opening closing : Char} (hb : Brackets opening closing)
    {text rest : List Char} (hline : lines text = [opening :: rest]) :
    read text = readInline maxDepth 1 1 (opening :: rest) := by
  have hhash : opening ≠ '#' := by
    rcases hb with - | -
    all_goals decide
  have hshows := shows_flush hb.isBlank_eq hhash 1 rest
  obtain ⟨more, htrim⟩ := exists_trim_eq hb.isBlank_eq rest
  have hmark : (trim (opening :: rest) == ['-', '-', '-']) = false := by
    rw [htrim]
    rcases hb with - | -
    all_goals rfl
  have hblock : readBlock (readers maxDepth) 0 [⟨1, 0, opening :: rest⟩] =
      (readInline maxDepth 1 1 (opening :: rest)).map fun node => (node, []) := by
    rw [readBlock_cons hshows]
    rcases hb with - | -
    all_goals rfl
  have hcount : ¬maxLines < 1 := by decide
  unfold read readRoot
  rw [linesOf_line hline]
  simp only [List.length_singleton, hcount, if_false, skipIgnorable_cons hshows.content, hmark,
    hshows.indent, Bool.false_eq_true]
  show Except.map _ (readBlock (readers maxDepth) 0 _ >>= _) = _
  rw [hblock]
  rcases readInline maxDepth 1 1 (opening :: rest) with e | node
  · rfl
  · rfl

theorem readBlock_of_rows (hblock : Regular block) (hinner : ReadsBlocks inner block)
    {indent : Nat} {v : Json} {rows : List Row} {ls after : List Line}
    (h : CollectionRows block indent v rows) (hls : List.Forall₂ Line.Shows ls rows)
    (hafter : Next (·.indent < indent) after) :
    ∃ node, readBlock inner indent (ls ++ after) = .ok (node, after) ∧ Means node v := by
  have hrows := h
  rcases h with @⟨_, items, rows, nonempty, -, each⟩ | @⟨_, members, rows, nonempty, -, -, each⟩
  · obtain ⟨node, hnode, hmeans⟩ := readSequence_of_rows hblock hinner hrows hls
      (hafter.mono fun l hl => Or.inl hl)
    obtain ⟨text, rest, rfl, hitem⟩ := hblock.collection.headItem hrows
    rcases hls with - | ⟨hfirst, -⟩
    refine ⟨node, ?_, hmeans⟩
    rw [List.cons_append, readBlock_cons hfirst, if_pos hitem]
    exact hnode
  · obtain ⟨node, hnode, hmeans⟩ := readMapping_of_rows hblock hinner hrows hls hafter
    rcases each with - | ⟨first, next⟩
    · exact absurd rfl nonempty
    obtain ⟨tail, rest, rfl, htail⟩ := first.head
    rcases hls with - | ⟨hfirst, -⟩
    refine ⟨node, ?_, hmeans⟩
    rw [List.cons_append, readBlock_cons hfirst, blockColon_write _ htail]
    exact hnode

/-- **Readers with room for it read what is laid out**, and leave the lines behind it. -/
theorem readsBlocks (depth : Nat) :
    ∀ room, depth < room → ReadsBlocks (readers (room + 1)) (Block depth) := by
  have hinline : ∀ {room : Nat} {v : Json}, 0 < room → Leaf v → width v.flow ≤ maxInlineWidth →
      ∀ line column, ∃ node,
        (readers (room + 1)).inline line column v.flow = .ok node ∧ Means node v := by
    intro room v hroom hleaf hwidth line column
    have hplain := plain_leaf hleaf
    exact readInline_flow hplain hroom hplain.whole.tight.trim_eq hwidth
  induction depth with
  | zero =>
      intro room hroom
      exact ⟨fun h => h.elim, fun h => h.elim, hinline hroom⟩
  | succ depth ih =>
      intro room hroom
      obtain ⟨room, rfl⟩ : ∃ n, room = n + 1 := ⟨room - 1, by omega⟩
      have hblock := regular_block depth
      have hinner := ih room (by omega)
      exact ⟨readBlock_of_rows hblock hinner, readSequence_of_rows hblock hinner,
        hinline (by omega)⟩

end YamlDecode.Document
