/-
Positions in document order.

Nodes are listed in reading order, each before its children, and so are their places: a node
stands at the same place as the one listed before it or at a later one.  No place is outside of
the source, but for the end of a line.

On one line columns say it all, and `Spans` is what the rules for such values keep: the columns
go up, from that of the text to the end of it.  `Ranged` is what the rules for blocks keep.
Columns matter there only between a collection and what it starts with on the same line, and
between a key and its value.  For the rest lines decide, since what is read stands above the
lines that are left.
-/
import Mathlib.Data.Prod.Lex
import YamlDecode.Proofs.Document.Extent
import YamlDecode.Proofs.Document.Formed
import YamlDecode.Proofs.Document.Refusal

namespace YamlDecode

open YamlDecode.Text

/-- Where a node stands.  Places are compared by line first. -/
def Label.place (l : Label) : Nat ×ₗ Nat := toLex (l.line, l.column)

theorem Label.place_le {l l' : Label} :
    l.place ≤ l'.place ↔ l.line < l'.line ∨ l.line = l'.line ∧ l.column ≤ l'.column :=
  Prod.Lex.toLex_le_toLex

namespace Document

variable {source : List Char}

/-- The place of no node is behind that of a later one. -/
def Ordered (ls : List Label) : Prop := ls.Pairwise fun l l' => l.place ≤ l'.place

/-- A line of the source, or the first one if it has none, and a column of that line, or the
one behind its end. -/
structure InRange (source : List Char) (line column : Nat) : Prop where
  line_pos : 1 ≤ line
  line_le : line ≤ max 1 (lines source).length
  column_pos : 1 ≤ column
  column_le : column ≤ width ((lines source).getD (line - 1) []) + 1

/-- Columns that a text takes up are in range. -/
theorem InRange.of_sourceAt {line column column' : Nat} {text : List Char}
    (h : SourceAt source line column text) (hfrom : column ≤ column')
    (hto : column' ≤ column + width text) : InRange source line column' := by
  obtain ⟨hline, front, hsource, rfl⟩ := h
  have hlt : line - 1 < (lines source).length := (List.getElem?_eq_some_iff.1 hsource).1
  refine ⟨hline, by omega, by omega, ?_⟩
  rw [List.getD_eq_getElem?_getD, hsource, Option.getD_some, width_append]
  omega

/-! ### Values on one line -/

/-- Nodes of one line in order, at columns from `a` to `b`. -/
structure Spans (line a b : Nat) (ls : List Label) : Prop where
  ordered : Ordered ls
  within : ∀ l ∈ ls, l.line = line ∧ a ≤ l.column ∧ l.column ≤ b

namespace Spans

variable {line a b m : Nat} {l : Label} {ls ls' : List Label}

theorem nil : Spans line a b [] := ⟨List.Pairwise.nil, nofun⟩

theorem mono {a' b' : Nat} (h : Spans line a b ls) (ha : a' ≤ a) (hb : b ≤ b') :
    Spans line a' b' ls := by
  refine ⟨h.ordered, fun l hl => ?_⟩
  obtain ⟨hline, hfrom, hto⟩ := h.within l hl
  exact ⟨hline, by omega, by omega⟩

/-- A node in front of those that stand behind it. -/
theorem cons (h : Spans line m b ls) (tag : Tag) (value : String) (ha : a ≤ m) (hb : a ≤ b) :
    Spans line a b (⟨tag, value, line, a⟩ :: ls) := by
  refine ⟨List.pairwise_cons.2 ⟨fun l hl => ?_, h.ordered⟩,
    List.forall_mem_cons.2 ⟨⟨rfl, Nat.le_refl _, hb⟩, (h.mono ha (Nat.le_refl _)).within⟩⟩
  obtain ⟨hline, hfrom, -⟩ := h.within l hl
  exact Label.place_le.2 (.inr ⟨hline.symm, Nat.le_trans ha hfrom⟩)

theorem append (h : Spans line a m ls) (h' : Spans line m b ls') (ha : a ≤ m) (hb : m ≤ b) :
    Spans line a b (ls ++ ls') := by
  constructor
  · refine List.pairwise_append.2 ⟨h.ordered, h'.ordered, fun l hl l' hl' => ?_⟩
    obtain ⟨hline, -, hto⟩ := h.within l hl
    obtain ⟨hline', hfrom, -⟩ := h'.within l' hl'
    exact Label.place_le.2 (.inr ⟨hline.trans hline'.symm, Nat.le_trans hto hfrom⟩)
  · intro l hl
    rcases List.mem_append.1 hl with hl | hl
    · exact (h.mono (Nat.le_refl _) hb).within l hl
    · exact (h'.mono ha (Nat.le_refl _)).within l hl

end Spans

theorem preorder_leaf (tag : Tag) (value : List Char) (line column : Nat) :
    (leaf tag value line column).preorder = [⟨tag, String.ofList value, line, column⟩] := rfl

/-- A key is a single node. -/
theorem preorder_key {line column : Nat} {text : List Char} {key : Rose Label}
    (h : readKey line column text = .ok key) :
    ∃ tag value, key.preorder = [⟨tag, value, line, column⟩] := by
  rcases readKey_eq_ok h with ⟨value, behind, -, -, rfl⟩ | ⟨-, rfl⟩
  · exact ⟨_, _, preorder_leaf _ _ _ _⟩
  · exact ⟨_, _, preorder_leaf _ _ _ _⟩

theorem width_stripComment_le (cs : List Char) : width (stripComment cs) ≤ width cs := by
  obtain ⟨behind, hbehind⟩ := stripComment_append cs
  have happend := width_append (stripComment cs) behind
  rw [hbehind] at happend
  omega

/-- The blanks in front and what trimming leaves. -/
theorem blankWidth_add_width_trim_le (cs : List Char) :
    blankWidth cs + width (trim cs) ≤ width cs := by
  obtain ⟨blanks, hblanks, -⟩ := trim_append cs
  have happend := width_append (trim cs) blanks
  have hstart := blankWidth_add_width_trimStart cs
  rw [hblanks] at happend
  omega

/-- Pieces that stand behind one another, between two offsets. -/
structure Lined (a b : Nat) (ps : List Scanner.Piece) : Prop where
  ordered : ps.Pairwise fun p q => p.offset + width p.text < q.offset
  within : ∀ p ∈ ps, a ≤ p.offset ∧ p.offset + width p.text ≤ b

theorem lined_contentPieces (inner : List Char) :
    Lined 0 (width inner) (Grammar.contentPieces inner) := by
  refine ⟨(pairwise_flowPieces inner).filter _, fun p hp => ⟨Nat.zero_le _, ?_⟩⟩
  obtain ⟨front, behind, hinner, hoffset, -⟩ := mem_flowPieces (List.mem_filter.1 hp).1
  rw [hinner, width_append, width_append]
  omega

theorem Lined.tail {a b : Nat} {p : Scanner.Piece} {ps : List Scanner.Piece}
    (h : Lined a b (p :: ps)) : Lined (p.offset + width p.text) b ps := by
  obtain ⟨hfirst, hrest⟩ := List.pairwise_cons.1 h.ordered
  refine ⟨hrest, fun q hq => ⟨?_, (h.within q (List.mem_cons_of_mem p hq)).2⟩⟩
  exact Nat.le_of_lt (hfirst q hq)

/-- What a flow collection holds between its brackets is that much less wide. -/
theorem width_of_brackets {opening closing : Char} {text inner : List Char}
    (h : stripComment (trim text) = opening :: (inner ++ [closing])) :
    width inner + 2 ≤ width (trim text) := by
  have hopening := opening.utf8Size_pos
  have hclosing := closing.utf8Size_pos
  have hle := width_stripComment_le (trim text)
  rw [h, width_cons, width_append, width_cons, width_nil] at hle
  omega

namespace Grammar

mutual

theorem Inline.spans {line column : Nat} {text : List Char} {node : Rose Label} :
    Inline line column text node →
      Spans line column (column + width (trim text)) node.preorder
  | .quoted _ _ => Spans.nil.cons _ _ (Nat.le_refl _) (Nat.le_add_right _ _)
  | .word _ _ _ => Spans.nil.cons _ _ (Nat.le_refl _) (Nat.le_add_right _ _)
  | .mapping _ content entries _ => by
      have hwidth := width_of_brackets content
      have hspans := entries.spans (lined_contentPieces _) (Nat.zero_le _)
      exact (hspans.cons _ _ (by omega) (by omega)).mono (Nat.le_refl _) (by omega)
  | .sequence _ content items _ => by
      have hwidth := width_of_brackets content
      have hspans := items.spans (lined_contentPieces _) (Nat.zero_le _)
      exact (hspans.cons _ _ (by omega) (by omega)).mono (Nat.le_refl _) (by omega)

theorem FlowEntries.spans {line column a b : Nat} {ps : List Scanner.Piece}
    {nodes : List (Rose Label)} : FlowEntries line column ps nodes → Lined a b ps → a ≤ b →
      Spans line (column + 1 + a) (column + 1 + b) (Rose.preorderAll nodes)
  | .nil, _, _ => .nil
  | @FlowEntries.cons _ _ p ps before after _ _ _ colon readsKey readsValue rest, h, _ => by
      obtain ⟨ha, hb⟩ := h.within p List.mem_cons_self
      obtain ⟨tag, value, hkey⟩ := preorder_key readsKey
      have hrest := rest.spans h.tail hb
      have hvalue := readsValue.spans
      have hpiece := blankWidth_add_width_trim_le p.text
      have hafter := blankWidth_add_width_trim_le after
      have hcolon : ':'.utf8Size = 1 := rfl
      rw [flowColon_eq_some colon, width_append, width_cons] at hpiece
      rw [startOf] at hvalue hkey
      rw [Rose.preorderAll, Rose.preorderAll, hkey, List.singleton_append]
      -- The key, then the value up to the end of the piece, then the pieces behind it.
      have hentry := (hvalue.mono (Nat.le_refl _) (by omega)).append hrest (by omega) (by omega)
      exact (hentry.cons _ _ (by omega) (by omega)).mono (by omega) (Nat.le_refl _)

theorem FlowItems.spans {line column a b : Nat} {ps : List Scanner.Piece}
    {nodes : List (Rose Label)} : FlowItems line column ps nodes → Lined a b ps → a ≤ b →
      Spans line (column + 1 + a) (column + 1 + b) (Rose.preorderAll nodes)
  | .nil, _, _ => .nil
  | @FlowItems.cons _ _ p ps _ _ readsValue rest, h, _ => by
      obtain ⟨ha, hb⟩ := h.within p List.mem_cons_self
      have hrest := rest.spans h.tail hb
      have hvalue := readsValue.spans
      have hpiece := blankWidth_add_width_trim_le p.text
      have htrim := width_trim_le (trim p.text)
      rw [startOf] at hvalue
      rw [Rose.preorderAll]
      exact (hvalue.mono (by omega) (by omega)).append hrest (by omega) (by omega)

end

end Grammar

/-! ### Blocks -/

/-- Nodes in order from a place on, in range, and between the lines from which they were read and
the lines that are left. -/
structure Ranged (source : List Char) (ls after : List Line) (start : Nat ×ₗ Nat)
    (labels : List Label) : Prop where
  ordered : Ordered labels
  start_le : ∀ l ∈ labels, start ≤ l.place
  inRange : ∀ l ∈ labels, InRange source l.line l.column
  among : ∀ l ∈ labels, ∃ n ∈ ls, n.number ≤ l.line
  above : ∀ l ∈ labels, ∀ n ∈ after, l.line < n.number

namespace Ranged

variable {ls ls' mid after : List Line} {start start' : Nat ×ₗ Nat} {labels labels' : List Label}

theorem nil : Ranged source ls after start [] := ⟨List.Pairwise.nil, nofun, nofun, nofun, nofun⟩

theorem mono (h : Ranged source ls after start labels) (hstart : start' ≤ start)
    (hls : ∀ n ∈ ls, ∃ n' ∈ ls', n'.number ≤ n.number) :
    Ranged source ls' after start' labels := by
  refine ⟨h.ordered, fun l hl => hstart.trans (h.start_le l hl), h.inRange, fun l hl => ?_,
    h.above⟩
  obtain ⟨n, hn, hle⟩ := h.among l hl
  obtain ⟨n', hn', hle'⟩ := hls n hn
  exact ⟨n', hn', hle'.trans hle⟩

theorem of_spans {n : Line} {a b : Nat} {text : List Char} (h : Spans n.number a b labels)
    (hplace : SourceAt source n.number a text) (hb : b ≤ a + width text) (hn : n ∈ ls)
    (hafter : ∀ n' ∈ after, n.number < n'.number) :
    Ranged source ls after (toLex (n.number, a)) labels := by
  refine ⟨h.ordered, fun l hl => ?_, fun l hl => ?_, fun l hl => ?_, fun l hl => ?_⟩
  all_goals obtain ⟨hline, hfrom, hto⟩ := h.within l hl
  · exact Prod.Lex.toLex_le_toLex.2 (.inr ⟨hline.symm, hfrom⟩)
  · exact hline ▸ .of_sourceAt hplace hfrom (by omega)
  · exact ⟨n, hn, by omega⟩
  · exact hline ▸ hafter

/-- A node of a line in front of nodes that start at the same place or behind it. -/
theorem cons {n : Line} {column : Nat} {text : List Char}
    (h : Ranged source ls after (toLex (n.number, column)) labels) (tag : Tag) (value : String)
    (hplace : SourceAt source n.number column text) (hn : n ∈ ls)
    (hafter : ∀ n' ∈ after, n.number < n'.number) :
    Ranged source ls after (toLex (n.number, column))
      (⟨tag, value, n.number, column⟩ :: labels) := by
  have hself : Spans n.number column column [⟨tag, value, n.number, column⟩] :=
    Spans.nil.cons tag value (Nat.le_refl _) (Nat.le_refl _)
  have hfirst := of_spans hself hplace (Nat.le_add_right _ _) hn hafter
  exact ⟨List.pairwise_cons.2 ⟨h.start_le, h.ordered⟩,
    List.forall_mem_cons.2 ⟨hfirst.start_le _ List.mem_cons_self, h.start_le⟩,
    List.forall_mem_cons.2 ⟨hfirst.inRange _ List.mem_cons_self, h.inRange⟩,
    List.forall_mem_cons.2 ⟨hfirst.among _ List.mem_cons_self, h.among⟩,
    List.forall_mem_cons.2 ⟨hfirst.above _ List.mem_cons_self, h.above⟩⟩

/-- What is read of the lines left stands behind what was read before. -/
theorem append (h : Ranged source ls mid start labels) (h' : Ranged source mid after start labels')
    (hmid : mid ⊆ ls) (hafter : after ⊆ mid) :
    Ranged source ls after start (labels ++ labels') := by
  refine ⟨List.pairwise_append.2 ⟨h.ordered, h'.ordered, fun l hl l' hl' => ?_⟩, fun l hl => ?_,
    fun l hl => ?_, fun l hl => ?_, fun l hl => ?_⟩
  · obtain ⟨n, hn, hle⟩ := h'.among l' hl'
    exact Label.place_le.2 (.inl (Nat.lt_of_lt_of_le (h.above l hl n hn) hle))
  all_goals rcases List.mem_append.1 hl with hl | hl
  · exact h.start_le l hl
  · exact h'.start_le l hl
  · exact h.inRange l hl
  · exact h'.inRange l hl
  · exact h.among l hl
  · obtain ⟨n, hn, hle⟩ := h'.among l hl
    exact ⟨n, hmid hn, hle⟩
  · exact fun n hn => h.above l hl n (hafter hn)
  · exact h'.above l hl

end Ranged

/-- Lines further down have larger numbers. -/
theorem Left.number_lt {l n : Line} {rest : List Line} (h : Left source (l :: rest))
    (hn : n ∈ rest) : l.number < n.number := by
  rw [h.below] at hn
  obtain ⟨i, hi⟩ := List.mem_iff_getElem?.1 hn
  rw [List.getElem?_drop] at hi
  have := (getElem?_linesOf hi).1
  omega

/-- A text that ends a line stands at its indentation or behind it. -/
theorem Line.indent_lt_columnOf {l : Line} {tail : List Char} (h : tail <:+ l.text) :
    l.indent + 1 ≤ l.columnOf tail := by
  obtain ⟨front, hfront⟩ := h
  have hsplit := width_spaces l.rest
  have hwidth := width_append front tail
  rw [hfront, Line.text] at hwidth
  rw [indent, columnOf]
  omega

/-- The place from which on the nodes of a block stand that starts on the line. -/
def Line.place (l : Line) : Nat ×ₗ Nat := toLex (l.number, l.indent + 1)

/-- What is left of a line stands behind the start of it. -/
theorem Line.place_le_passTo {l : Line} {tail : List Char} (h : tail <:+ l.text) :
    l.place ≤ (l.passTo tail).place := by
  have hcolumn : l.indent + 1 ≤ (l.passTo tail).offset + 1 := indent_lt_columnOf h
  refine Prod.Lex.toLex_le_toLex.2 (.inr ⟨rfl, ?_⟩)
  show l.indent + 1 ≤ (l.passTo tail).indent + 1
  rw [indent] at hcolumn ⊢
  rw [indent]
  omega

/-- Nodes that a text at the end of a line holds. -/
theorem Ranged.of_text {l : Line} {ls after : List Line} {text : List Char} {labels : List Label}
    (h : Spans l.number (l.columnOf text) (l.columnOf text + width text) labels)
    (hleft : Left source (l :: ls)) (htext : text <:+ l.text) (hafter : after <:+ ls) :
    Ranged source (l :: ls) after l.place labels := by
  have hplace := hleft.within.columnOf (htext.trans l.text_suffix)
  have hl : l ∈ l :: ls := List.mem_cons_self
  have hspans := Ranged.of_spans h hplace (Nat.le_refl _) hl
    fun n hn => hleft.number_lt (hafter.subset hn)
  refine hspans.mono ?_ fun n hn => ⟨n, hn, Nat.le_refl _⟩
  exact Prod.Lex.toLex_le_toLex.2 (.inr ⟨rfl, Line.indent_lt_columnOf htext⟩)

section

variable {ls ls' rest : List Line} {l : Line} {start : Nat ×ₗ Nat}

theorem next_next (h : skipIgnorable ls = l :: rest) (hstart : start ≤ l.place) :
    Next (start ≤ ·.place) (l :: rest) :=
  next_cons (not_ignorable_of_skip h) hstart rest

/-- Blocks below a line start behind it. -/
theorem Left.next_le (h : Left source (l :: rest)) (hls : ls <:+ rest) (hstart : start ≤ l.place) :
    Next (start ≤ ·.place) ls := by
  intro n below hnext
  have hn : n ∈ ls := (skipIgnorable_suffix hnext).subset List.mem_cons_self
  exact hstart.trans (Prod.Lex.toLex_le_toLex.2 (.inl (h.number_lt (hls.subset hn))))

theorem among_of_suffix (h : ls <:+ ls') : ∀ n ∈ ls, ∃ n' ∈ ls', n'.number ≤ n.number :=
  fun n hn => ⟨n, h.subset hn, Nat.le_refl _⟩

end

namespace Grammar

mutual

theorem Block.ranged {ls after : List Line} {node : Rose Label} {start : Nat ×ₗ Nat} :
    Block ls node after → Left source ls → Next (start ≤ ·.place) ls →
      Ranged source ls after start node.preorder
  | .sequence next read, h, hstart => by
      have hread := read.ranged (h.next next) (skipIgnorable_next next) rfl
      exact hread.mono (hstart _ _ next) (among_of_suffix (skipIgnorable_suffix next))
  | .mapping next colon entries count, h, hstart => by
      have hafter := (Block.mapping next colon entries count).beyond.below_next next
      have hentries := entries.ranged (h.next next) (next_next next (le_refl _))
      refine (hentries.cons _ _ (h.next next).within.text List.mem_cons_self ?_).mono
        (hstart _ _ next) (among_of_suffix (skipIgnorable_suffix next))
      exact fun n hn => (h.next next).number_lt (hafter.subset hn)
  | @Block.inline _ rest l node next read, h, hstart => by
      have hwidth := width_trim_le l.text
      have hread : Ranged source (l :: rest) rest l.place node.preorder :=
        .of_spans read.spans (h.next next).within.text (by omega) List.mem_cons_self
          fun n hn => (h.next next).number_lt hn
      exact hread.mono (hstart _ _ next) (among_of_suffix (skipIgnorable_suffix next))

theorem Sequence.ranged {l : Line} {ls rest after : List Line} {node : Rose Label} :
    Sequence ls node after → Left source ls → skipIgnorable ls = l :: rest → ls = l :: rest →
      Ranged source ls after l.place node.preorder
  | .items item items count, h, hfirst, hls => by
      obtain ⟨rfl, rfl⟩ := List.cons.inj hls
      have hafter := ((Sequence.items item items count).beyond hfirst).below_next hfirst
      have hitems := items.ranged h (next_next hfirst (le_refl _))
      exact hitems.cons _ _ h.within.text List.mem_cons_self
        fun n hn => h.number_lt (hafter.subset hn)

theorem Entries.ranged {indent : Nat} {ls after : List Line} {nodes : List (Rose Label)}
    {start : Nat ×ₗ Nat} : Entries indent ls nodes after → Left source ls →
      Next (start ≤ ·.place) ls → Ranged source ls after start (Rose.preorderAll nodes)
  | .nil _, _, _ => .nil
  | .cons next level colon readsKey readsValue more, h, hstart => by
      have hleft := h.next next
      have hmid := readsValue.suffix
      have hafter := more.suffix
      have hvalue := readsValue.ranged hleft (behindColon_suffix_text colon)
      have hmore := more.ranged (hleft.tail.suffix hmid) (hleft.next_le hmid (le_refl _))
      obtain ⟨tag, value, hkey⟩ := preorder_key readsKey
      rw [Rose.preorderAll, Rose.preorderAll, hkey, ← level]
      have hbehind := hvalue.append hmore (hmid.trans (List.suffix_cons _ _)).subset hafter.subset
      refine (hbehind.cons tag value hleft.within.text List.mem_cons_self ?_).mono
        (hstart _ _ next) (among_of_suffix (skipIgnorable_suffix next))
      exact fun n hn => hleft.number_lt ((hafter.trans hmid).subset hn)

theorem Items.ranged {indent : Nat} {ls after : List Line} {nodes : List (Rose Label)}
    {start : Nat ×ₗ Nat} : Items indent ls nodes after → Left source ls →
      Next (start ≤ ·.place) ls → Ranged source ls after start (Rose.preorderAll nodes)
  | .nil _, _, _ => .nil
  | @Items.block _ _ rest mid _ l value _ next level item starts readsValue more, h, hstart => by
      have hleft := h.next next
      have hcontent := Line.ignorable_passTo item (behindDash_suffix_tail _)
      have hmid := readsValue.beyond.below_next (skipIgnorable_cons hcontent _)
      have htext := behindDash_suffix_text l
      have hpassed := hleft.passTo (behindDash_suffix l) (trimStart_trimStart _)
      have hvalue := readsValue.ranged hpassed (next_cons hcontent (Line.place_le_passTo htext) _)
      have hmore := more.ranged (hleft.tail.suffix hmid) (hleft.next_le hmid (le_refl _))
      rw [Rose.preorderAll]
      have hsame : Ranged source (l :: rest) mid l.place value.preorder :=
        hvalue.mono (le_refl _) (List.forall_mem_cons.2
          ⟨⟨l, List.mem_cons_self, Nat.le_refl _⟩, among_of_suffix (List.suffix_cons _ _)⟩)
      exact (hsame.append hmore (hmid.trans (List.suffix_cons _ _)).subset more.suffix.subset).mono
        (hstart _ _ next) (among_of_suffix (skipIgnorable_suffix next))
  | .value next level item starts readsValue more, h, hstart => by
      have hleft := h.next next
      have hmid := readsValue.suffix
      have hvalue := readsValue.ranged hleft (behindDash_suffix_text _)
      have hmore := more.ranged (hleft.tail.suffix hmid) (hleft.next_le hmid (le_refl _))
      rw [Rose.preorderAll]
      exact (hvalue.append hmore (hmid.trans (List.suffix_cons _ _)).subset more.suffix.subset).mono
        (hstart _ _ next) (among_of_suffix (skipIgnorable_suffix next))

theorem Value.ranged {compact : Bool} {l : Line} {text : List Char} {ls after : List Line}
    {node : Rose Label} : Value compact l text ls node after → Left source (l :: ls) →
      text <:+ l.text → Ranged source (l :: ls) after l.place node.preorder
  | .deeper _ skip _ read, h, _ => by
      have hbelow := skipIgnorable_suffix skip
      have hread := read.ranged (h.tail.next skip) (h.next_le hbelow (le_refl _))
      exact hread.mono (le_refl _) (among_of_suffix (hbelow.trans (List.suffix_cons _ _)))
  | .compact _ skip _ read, h, _ => by
      have hbelow := skipIgnorable_suffix skip
      have hread := read.ranged (h.tail.next skip) (skipIgnorable_next skip) rfl
      exact hread.mono (h.next_le hbelow (le_refl _) _ _ (skipIgnorable_next skip))
        (among_of_suffix (hbelow.trans (List.suffix_cons _ _)))
  | .null _, h, htext =>
      .of_text (Spans.nil.cons _ _ (Nat.le_refl _) (Nat.le_add_right _ _)) h htext
        (List.suffix_refl _)
  | .scalar readsHeader read, h, htext => by
      have hvalue : Value compact l text ls _ after := .scalar readsHeader read
      exact .of_text (Spans.nil.cons _ _ (Nat.le_refl _) (Nat.le_add_right _ _)) h htext
        hvalue.suffix
  | .inline read, h, htext => by
      have hwidth := width_trim_le text
      exact .of_text (read.spans.mono (Nat.le_refl _) (by omega)) h htext (List.suffix_refl _)

end

end Grammar

/-! ### Documents -/

/-- The nodes of a document are in order and in range. -/
theorem read_ordered {text : List Char} {node : Rose Label} (h : Document.read text = .ok node) :
    Ordered node.preorder ∧ ∀ l ∈ node.preorder, InRange text l.line l.column := by
  rcases read_sound h with ⟨-, rfl⟩ | ⟨last, hblock⟩
  · -- The node of a document without content stands at the first line, be there one or not.
    rw [preorder_leaf]
    refine ⟨List.pairwise_singleton _ _, List.forall_mem_singleton.2 ?_⟩
    exact ⟨Nat.le_refl 1, Nat.le_max_left _ _, Nat.le_refl 1, Nat.le_add_left _ _⟩
  · have hleft : Left text (linesOf text) := .lines 0
    have hstart : Next (toLex (0, 0) ≤ ·.place) (rootLines (linesOf text)) :=
      fun l rest _ => Prod.Lex.toLex_mono ⟨Nat.zero_le _, Nat.zero_le _⟩
    have hranged := hblock.ranged (hleft.suffix (rootLines_suffix _)) hstart
    exact ⟨hranged.ordered, hranged.inRange⟩

end Document

/-- **Positions are in document order and in the source**: a node stands at the same place as the
one numbered before it or behind it, and what is refused is refused at a line of the source. -/
theorem parse_positions (text : String) :
    match parse text with
    | .ok t =>
      (∀ r s : Tree.Ref t, r.id < s.id →
        r.line < s.line ∨ r.line = s.line ∧ r.column ≤ s.column) ∧
      ∀ r : Tree.Ref t, Document.InRange text.toList r.line r.column
    | .error e => 1 ≤ e.line ∧ e.line ≤ (Text.lines text.toList).length := by
  cases h : parse text with
  | error e => exact Document.read_error_line (map_eq_error h)
  | ok t =>
      obtain ⟨node, hread, rfl⟩ := exists_read_of_parse h
      obtain ⟨hordered, hrange⟩ := Document.read_ordered hread
      constructor
      · intro r s hlt
        obtain ⟨hr, hrlabel⟩ := List.getElem?_eq_some_iff.1 (Tree.label_ofRose r)
        obtain ⟨hs, hslabel⟩ := List.getElem?_eq_some_iff.1 (Tree.label_ofRose s)
        have hle := List.pairwise_iff_getElem.1 hordered r.id s.id hr hs hlt
        rw [hrlabel, hslabel] at hle
        exact Label.place_le.1 hle
      · intro r
        exact hrange _ (List.mem_of_getElem? (Tree.label_ofRose r))

end YamlDecode
