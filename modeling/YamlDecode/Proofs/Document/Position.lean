/-
Positions point at the source.

At the line and the column of a node there stands what the node was read from: the bracket
or the dash of a collection or the first key of a mapping, the value of a scalar, its quoted
form, or the header of a block scalar.  This needs that only spaces indent.  Behind another
blank the column of a line's text is that of the blank, though the text is read from behind
it.

The proof is an induction on the rules by which a document is read.  What is carried down is
where the text stands that is to be read: `Placed` for a text on one line, and `Left` for the
lines that are left.
-/
import YamlDecode.Proofs.Document.Extent
import YamlDecode.Proofs.Document.Formed

namespace YamlDecode

namespace Document

open YamlDecode.Text

variable {source : List Char}

/-! ### What stands at a place -/

/-- What a scalar was read from: its value, a quoted text, or the header of a block scalar
whose text the lines below hold. -/
inductive ShowsScalar (source rest : List Char) (l : Label) : Prop
  | plain (value : l.value.toList <+: rest)
  | quoted {behind : List Char} (opens : Quoted.opens rest = true)
      (read : Quoted.read rest = .ok (l.value.toList, behind))
  | block {header : Header} {indent : Nat} (tag : l.tag = .str)
      (opens : rest.head? = some '|' ∨ rest.head? = some '>')
      (readsHeader : Header.read rest = .ok (some header))
      (value : (header.readBlock indent ((linesOf source).drop l.line)).1 = l.value.toList)

/-- What a node was read from. -/
structure Shows (source rest : List Char) (r : Rose Label) : Prop where
  mapping : r.label.tag = .map → rest.head? = some '{' ∨
    ∃ key, r.children.head? = some key ∧ key.label.line = r.label.line ∧
      key.label.column = r.label.column
  sequence : r.label.tag = .seq → rest.head? = some '[' ∨ rest.head? = some '-'
  scalar : r.label.tag.isContainer = false → ShowsScalar source rest r.label

/-- The source has at the place of a node what the node was read from. -/
def PointsAt (source : List Char) (r : Rose Label) : Prop :=
  ∃ rest, SourceAt source r.label.line r.label.column rest ∧ Shows source rest r

/-- A tree in which all nodes point at the source. -/
abbrev Points (source : List Char) (r : Rose Label) : Prop := r.Every (PointsAt source)

section Places

variable {line column : Nat} {rest : List Char}

theorem points_leaf {tag : Tag} {value : List Char} (htag : tag.isContainer = false)
    (h : SourceAt source line column rest)
    (hshows : ShowsScalar source rest ⟨tag, String.ofList value, line, column⟩) :
    Points source (leaf tag value line column) := by
  refine .node ⟨rest, h, ?_, ?_, fun _ => hshows⟩ fun c hc => absurd hc List.not_mem_nil
  · rintro rfl
    cases htag
  · rintro rfl
    cases htag

theorem points_plain {tag : Tag} {value : List Char} (htag : tag.isContainer = false)
    (h : SourceAt source line column rest) (hvalue : value <+: rest) :
    Points source (leaf tag value line column) :=
  points_leaf htag h (.plain (by simpa using hvalue))

theorem points_quoted {value behind : List Char} (h : SourceAt source line column rest)
    (hopens : Quoted.opens rest = true) (hread : Quoted.read rest = .ok (value, behind)) :
    Points source (leaf .str value line column) :=
  points_leaf rfl h (.quoted hopens (by simpa using hread))

/-- A block scalar starts with the mark of its style. -/
theorem head_of_header {text : List Char} {header : Header} (hstart : trimStart text = text)
    (h : Header.read text = .ok (some header)) :
    text.head? = some '|' ∨ text.head? = some '>' := by
  have hhead : ∀ c marks, trim (stripComment text) = c :: marks → text.head? = some c := by
    intro c marks hmarks
    obtain ⟨comment, hcomment⟩ := stripComment_append text
    rw [← hcomment] at hstart
    obtain ⟨blanks, happend, -⟩ := trim_append (stripComment text)
    rw [hmarks, trimStart_eq_of_append hstart] at happend
    rw [← hcomment, ← happend]
    rfl
  unfold Header.read at h
  split at h
  · next hmarks => exact .inl (hhead _ _ hmarks)
  · next hmarks => exact .inr (hhead _ _ hmarks)
  · cases h

theorem points_block {header : Header} {indent : Nat} {value : List Char} {after : List Line}
    (h : SourceAt source line column rest) (hstart : trimStart rest = rest)
    (hheader : Header.read rest = .ok (some header))
    (hread : header.readBlock indent ((linesOf source).drop line) = (value, after)) :
    Points source (leaf .str value line column) := by
  have hvalue : (header.readBlock indent ((linesOf source).drop line)).1 =
      (String.ofList value).toList := by
    rw [hread, String.toList_ofList]
  exact points_leaf rfl h (.block rfl (head_of_header hstart hheader) hheader hvalue)

theorem points_map {cs : List (Rose Label)} (h : SourceAt source line column rest)
    (hshows : rest.head? = some '{' ∨
      ∃ key, cs.head? = some key ∧ key.label.line = line ∧ key.label.column = column)
    (hbelow : ∀ c ∈ cs, Points source c) : Points source (.node ⟨.map, "", line, column⟩ cs) :=
  .node ⟨rest, h, fun _ => hshows, nofun, nofun⟩ hbelow

theorem points_seq {cs : List (Rose Label)} (h : SourceAt source line column rest)
    (hshows : rest.head? = some '[' ∨ rest.head? = some '-') (hbelow : ∀ c ∈ cs, Points source c) :
    Points source (.node ⟨.seq, "", line, column⟩ cs) :=
  .node ⟨rest, h, nofun, fun _ => hshows, nofun⟩ hbelow

/-! ### Texts with a place -/

/-- The text stands at a place, but for the blanks it starts with, and no quote follows it. -/
def Placed (source : List Char) (line column : Nat) (text : List Char) : Prop :=
  ∃ behind, behind.head? ≠ some '\'' ∧ SourceAt source line column (trimStart text ++ behind)

namespace Placed

variable {text before after : List Char}

theorem trim (h : Placed source line column text) :
    ∃ behind, behind.head? ≠ some '\'' ∧
      SourceAt source line column (Text.trim text ++ behind) := by
  obtain ⟨behind, hbehind, hplace⟩ := h
  obtain ⟨blanks, happend, hblanks⟩ := trim_append text
  rw [← happend, List.append_assoc] at hplace
  refine ⟨blanks ++ behind, ?_, hplace⟩
  cases blanks with
  | nil => exact hbehind
  | cons c blanks =>
      intro hquote
      obtain rfl := Option.some.inj hquote
      rw [allBlank, List.all_cons] at hblanks
      cases hblanks

theorem ofTrim (h : Placed source line column text) :
    Placed source line column (Text.trim text) := by
  obtain ⟨behind, hbehind, hplace⟩ := h.trim
  exact ⟨behind, hbehind, by rwa [trimStart_trim]⟩

/-- A key and what follows its colon have places of their own. -/
theorem split (h : Placed source line column (before ++ ':' :: after))
    (hstart : trimStart (before ++ ':' :: after) = before ++ ':' :: after) :
    Placed source line column before ∧
      Placed source line (column + width before + 1 + blankWidth after) after := by
  obtain ⟨behind, hbehind, hplace⟩ := h
  rw [hstart, List.append_assoc, List.cons_append] at hplace
  refine ⟨⟨':' :: (after ++ behind), nofun, ?_⟩, behind, hbehind, ?_⟩
  · rwa [trimStart_eq_of_append hstart]
  · have hcolon : SourceAt source line (column + width before) ([':'] ++ (after ++ behind)) :=
      hplace.shift
    exact hcolon.shift.skipBlanks

theorem flowColon (h : Placed source line column (Text.trim text))
    (hcolon : Text.flowColon (Text.trim text) = some (before, after)) :
    Placed source line column before ∧
      Placed source line (column + width before + 1 + blankWidth after) after := by
  have hstart := trimStart_trim text
  rw [flowColon_eq_some hcolon] at h hstart
  exact h.split hstart

end Placed

/-! ### Keys and values on one line -/

theorem points_key {text : List Char} {key : Rose Label} (h : readKey line column text = .ok key)
    (hplaced : Placed source line column text) : Points source key := by
  obtain ⟨behind, hbehind, hplace⟩ := hplaced.trim
  rcases readKey_eq_ok h with ⟨value, after, hopens, hread, rfl⟩ | ⟨-, rfl⟩
  · exact points_quoted hplace (Quoted.opens_append hopens _) (Quoted.read_append hread hbehind)
  · exact points_plain (Tag.isContainer_ofPlain _) hplace (List.prefix_append _ _)

/-- The pieces of a flow collection stand behind its opening bracket. -/
def PiecesPlaced (source : List Char) (line column : Nat) (ps : List Scanner.Piece) : Prop :=
  ∀ p ∈ ps, Placed source line (Grammar.startOf column p) (trim p.text)

/-- A flow collection starts with its opening bracket, and its pieces have places. -/
theorem Placed.collection {opening closing : Char} {text inner : List Char}
    (h : Placed source line column text) (hopening : opening.utf8Size = 1)
    (hclosing : closing ≠ '\'')
    (hcontent : stripComment (Text.trim text) = opening :: (inner ++ [closing])) :
    ∃ rest, SourceAt source line column rest ∧ rest.head? = some opening ∧
      PiecesPlaced source line column (Grammar.contentPieces inner) := by
  obtain ⟨behind, -, hplace⟩ := h.trim
  obtain ⟨comment, hcomment⟩ := stripComment_append (Text.trim text)
  rw [← hcomment, hcontent] at hplace
  refine ⟨_, hplace, rfl, ?_⟩
  intro p hp
  obtain ⟨front, after, rfl, hoffset, hafter⟩ := mem_flowPieces (List.mem_filter.1 hp).1
  have hpiece : SourceAt source line (column + width (opening :: front))
      (p.text ++ (after ++ closing :: (comment ++ behind))) := by
    refine SourceAt.shift ?_
    simpa using hplace
  have hcolumn : Grammar.startOf column p =
      column + width (opening :: front) + blankWidth p.text := by
    rw [Grammar.startOf, hoffset, width_cons, hopening]
    omega
  rw [hcolumn]
  refine Placed.ofTrim ⟨_, ?_, hpiece.skipBlanks⟩
  cases after with
  | nil => simpa using hclosing
  | cons c after =>
      rw [hafter c rfl]
      simp

end Places

namespace Grammar

mutual

theorem Inline.points {line column : Nat} {text : List Char} {node : Rose Label} :
    Inline line column text node → Placed source line column text → Points source node
  | .quoted opens read, h => by
      obtain ⟨behind, hbehind, hplace⟩ := h.trim
      exact points_quoted hplace (Quoted.opens_append opens _) (Quoted.read_append read hbehind)
  | .word _ content _, h => by
      obtain ⟨behind, -, hplace⟩ := h.trim
      obtain ⟨comment, hcomment⟩ := stripComment_append (trim text)
      rw [content] at hcomment
      rw [← hcomment, List.append_assoc] at hplace
      exact points_plain (Tag.isContainer_ofPlain _) hplace (List.prefix_append _ _)
  | .mapping _ content entries _, h => by
      obtain ⟨rest, hplace, hhead, hpieces⟩ := h.collection rfl (by decide) content
      exact points_map hplace (.inl hhead) (entries.points hpieces)
  | .sequence _ content items _, h => by
      obtain ⟨rest, hplace, hhead, hpieces⟩ := h.collection rfl (by decide) content
      exact points_seq hplace (.inl hhead) (items.points hpieces)

theorem FlowEntries.points {line column : Nat} {ps : List Scanner.Piece}
    {nodes : List (Rose Label)} :
    FlowEntries line column ps nodes → PiecesPlaced source line column ps →
      ∀ c ∈ nodes, Points source c
  | .nil, _ => nofun
  | .cons colon readsKey readsValue rest, h => by
      obtain ⟨hpiece, hpieces⟩ := List.forall_mem_cons.1 h
      obtain ⟨hkey, hvalue⟩ := hpiece.flowColon colon
      exact List.forall_mem_cons.2 ⟨points_key readsKey hkey,
        List.forall_mem_cons.2 ⟨readsValue.points hvalue, rest.points hpieces⟩⟩

theorem FlowItems.points {line column : Nat} {ps : List Scanner.Piece}
    {nodes : List (Rose Label)} :
    FlowItems line column ps nodes → PiecesPlaced source line column ps →
      ∀ c ∈ nodes, Points source c
  | .nil, _ => nofun
  | .cons readsValue rest, h => by
      obtain ⟨hpiece, hpieces⟩ := List.forall_mem_cons.1 h
      exact List.forall_mem_cons.2 ⟨readsValue.points hpiece, rest.points hpieces⟩

end

/-! ### Blocks -/

/-- A mapping starts with its first key. -/
theorem Entries.first {l : Line} {rest after : List Line} {nodes : List (Rose Label)}
    (h : Entries l.indent (l :: rest) nodes after) (hcontent : l.ignorable = false) :
    ∃ key, nodes.head? = some key ∧ key.label.line = l.number ∧
      key.label.column = l.indent + 1 := by
  have hskip := skipIgnorable_cons hcontent rest
  generalize hindent : l.indent = indent at h
  cases h with
  | nil stop => exact absurd (stop l rest hskip) (by omega)
  | @cons _ _ _ _ _ l' _ _ key _ _ next level colon readsKey readsValue more =>
      rw [hskip] at next
      obtain ⟨rfl, -⟩ := List.cons.inj next
      refine ⟨key, rfl, ?_⟩
      rcases readKey_eq_ok readsKey with ⟨value, behind, -, -, rfl⟩ | ⟨-, rfl⟩
      · exact ⟨rfl, rfl⟩
      · exact ⟨rfl, rfl⟩

/-- A flush line has its text at its indentation. -/
theorem placed_line {l : Line} (hwithin : l.Within source) (hflush : l.Flush) :
    Placed source l.number (l.indent + 1) l.text :=
  ⟨[], nofun, by rw [List.append_nil, hflush]; exact hwithin.text⟩

theorem placed_key {l : Line} {before behind : List Char} (hwithin : l.Within source)
    (hflush : l.Flush) (hcolon : blockColon l.text = some (before, behind)) :
    Placed source l.number (l.indent + 1) before := by
  have hplaced := placed_line hwithin hflush
  rw [Line.Flush, blockColon_eq_some hcolon] at hflush
  rw [blockColon_eq_some hcolon] at hplaced
  exact (hplaced.split hflush).1

mutual

theorem Block.points (hsource : SpaceIndented source) {ls after : List Line} {node : Rose Label} :
    Block ls node after → Left source ls → Points source node ∧ Left source after
  | .sequence next read, h => read.points hsource (h.next next)
  | .mapping next _ entries _, h => by
      have hfirst := entries.first (not_ignorable_of_skip next)
      obtain ⟨hnodes, hafter⟩ := entries.points hsource (h.next next)
      exact ⟨points_map (h.next next).within.text (.inr hfirst) hnodes, hafter⟩
  | .inline next read, h => by
      have hflush := (h.next next).flush hsource (not_ignorable_of_skip next)
      have hplaced := placed_line (h.next next).within hflush
      exact ⟨read.points hplaced, (h.next next).tail⟩

theorem Sequence.points (hsource : SpaceIndented source) {ls after : List Line}
    {node : Rose Label} : Sequence ls node after → Left source ls →
      Points source node ∧ Left source after
  | .items item items _, h => by
      obtain ⟨hnodes, hafter⟩ := items.points hsource h
      exact ⟨points_seq h.within.text (.inr (head_of_isItem item)) hnodes, hafter⟩

theorem Entries.points (hsource : SpaceIndented source) {indent : Nat} {ls after : List Line}
    {nodes : List (Rose Label)} : Entries indent ls nodes after → Left source ls →
      (∀ c ∈ nodes, Points source c) ∧ Left source after
  | .nil _, h => ⟨nofun, h⟩
  | .cons next level colon readsKey readsValue more, h => by
      have hflush := (h.next next).flush hsource (not_ignorable_of_skip next)
      have hkey := placed_key (h.next next).within hflush colon
      rw [level] at hkey
      obtain ⟨hvalue, hmore⟩ := readsValue.points hsource (h.next next) (behindColon_suffix colon)
        (trimStart_trimStart _)
      obtain ⟨hnodes, hafter⟩ := more.points hsource hmore
      exact ⟨List.forall_mem_cons.2 ⟨points_key readsKey hkey,
        List.forall_mem_cons.2 ⟨hvalue, hnodes⟩⟩, hafter⟩

theorem Items.points (hsource : SpaceIndented source) {indent : Nat} {ls after : List Line}
    {nodes : List (Rose Label)} : Items indent ls nodes after → Left source ls →
      (∀ c ∈ nodes, Points source c) ∧ Left source after
  | .nil _, h => ⟨nofun, h⟩
  | .block next level item starts readsValue more, h => by
      have hpassed := (h.next next).passTo (behindDash_suffix _) (trimStart_trimStart _)
      obtain ⟨hvalue, hmore⟩ := readsValue.points hsource hpassed
      obtain ⟨hnodes, hafter⟩ := more.points hsource hmore
      exact ⟨List.forall_mem_cons.2 ⟨hvalue, hnodes⟩, hafter⟩
  | .value next level item starts readsValue more, h => by
      obtain ⟨hvalue, hmore⟩ := readsValue.points hsource (h.next next) (behindDash_suffix _)
        (trimStart_trimStart _)
      obtain ⟨hnodes, hafter⟩ := more.points hsource hmore
      exact ⟨List.forall_mem_cons.2 ⟨hvalue, hnodes⟩, hafter⟩

theorem Value.points (hsource : SpaceIndented source) {compact : Bool} {l : Line}
    {text : List Char} {ls after : List Line} {node : Rose Label} :
    Value compact l text ls node after → Left source (l :: ls) → text <:+ l.rest →
      trimStart text = text → Points source node ∧ Left source after
  | .deeper _ skip _ read, h, _, _ => read.points hsource (h.tail.next skip)
  | .compact _ skip _ read, h, _, _ => read.points hsource (h.tail.next skip)
  | .null _, h, htext, _ =>
      ⟨points_plain rfl (h.within.columnOf htext) List.nil_prefix, h.tail⟩
  | .scalar readsHeader read, h, htext, hstart => by
      have hread := read
      rw [h.below] at hread
      exact ⟨points_block (h.within.columnOf htext) hstart readsHeader hread,
        h.tail.readBlock read⟩
  | .inline read, h, htext, hstart => by
      refine ⟨read.points ⟨[], nofun, ?_⟩, h.tail⟩
      rw [List.append_nil, hstart]
      exact h.within.columnOf htext

end

end Grammar

/-! ### Documents -/

/-- The first line with content is the first line of a source, if not a later one. -/
theorem sourceAt_first {l : Line} (h : l ∈ linesOf source) : ∃ rest, SourceAt source 1 1 rest := by
  have hne : lines source ≠ [] := by
    intro hnil
    rw [linesOf, hnil] at h
    cases h
  obtain ⟨first, rest, hlines⟩ := List.exists_cons_of_ne_nil hne
  exact ⟨first, Nat.one_pos, [], by simp [hlines], rfl⟩

theorem read_points {text : List Char} {node : Rose Label} (h : Document.read text = .ok node)
    (hindent : SpaceIndented text) (hcontent : ∃ l ∈ linesOf text, l.ignorable = false) :
    Points text node := by
  rcases read_sound h with ⟨-, rfl⟩ | ⟨last, hblock⟩
  · obtain ⟨l, hl, -⟩ := hcontent
    obtain ⟨rest, hplace⟩ := sourceAt_first hl
    exact points_plain rfl hplace List.nil_prefix
  · have hleft : Left text (linesOf text) := .lines 0
    exact (hblock.points hindent (hleft.suffix (rootLines_suffix _))).1

end Document

/-- At the line and the column of the node the source has what the node was read from: an opening
bracket, a dash or the first key of a collection, and of a scalar its value, its quoted form or
the header of a block scalar. -/
def Tree.Ref.PointsAt {t : Tree} (source : List Char) (r : Ref t) : Prop :=
  ∃ rest, Document.SourceAt source r.line r.column rest ∧
    (r.tag = .map → rest.head? = some '{' ∨
      ∃ key, r.children.head? = some key ∧ key.line = r.line ∧ key.column = r.column) ∧
    (r.tag = .seq → rest.head? = some '[' ∨ rest.head? = some '-') ∧
    (r.kind = .scalar → Document.ShowsScalar source rest r.label)

/-- **Positions point at the source**, as long as only spaces indent. -/
theorem parse_pointsAt {text : String} {t : Tree} (h : parse text = .ok t)
    (hindent : Document.SpaceIndented text.toList)
    (hcontent : ∃ l ∈ Document.linesOf text.toList, l.ignorable = false) (r : Tree.Ref t) :
    r.PointsAt text.toList := by
  obtain ⟨node, hread, rfl⟩ := exists_read_of_parse h
  have hpoints := (Tree.every_view (Document.read_points hread hindent hcontent) r).self
  rw [r.map_view] at hpoints
  obtain ⟨rest, hplace, hshows⟩ := hpoints
  refine ⟨rest, hplace, ?_, hshows.sequence, ?_⟩
  · intro hmap
    refine (hshows.mapping hmap).imp id ?_
    rintro ⟨key, hkey, hline, hcolumn⟩
    rw [Rose.children_node, List.head?_map] at hkey
    obtain ⟨c, hc, rfl⟩ := Option.map_eq_some_iff.1 hkey
    rw [c.map_view, Rose.label_node] at hline hcolumn
    exact ⟨c, hc, hline, hcolumn⟩
  · intro hscalar
    exact hshows.scalar (Tree.Ref.isContainer_eq_false.2 hscalar)

/-- A quoted text behind a blank that takes two bytes, and a block scalar. -/
theorem pointsAt_quoted : ∃ t, parse "k: [a, \u00a0\"b\"]\nl: |\n  x\n" = .ok t ∧
    ∀ r : Tree.Ref t, r.PointsAt "k: [a, \u00a0\"b\"]\nl: |\n  x\n".toList := by
  have hread : Document.read "k: [a, \u00a0\"b\"]\nl: |\n  x\n".toList = .ok
      (.node ⟨.map, "", 1, 1⟩ [Document.leaf .str ['k'] 1 1,
        .node ⟨.seq, "", 1, 4⟩ [Document.leaf .str ['a'] 1 5, Document.leaf .str ['b'] 1 10],
        Document.leaf .str ['l'] 2 1, Document.leaf .str ['x', '\n'] 2 4]) := by cbv
  have hparse := congrArg (Except.map Tree.ofRose) hread
  refine ⟨_, hparse, fun r => parse_pointsAt hparse ?_ ?_ r⟩
  · unfold Document.SpaceIndented
    decide
  · decide

end YamlDecode
