/-
How deep collections stand.

Readers count the levels that are left, and a collection takes one of them: `Within room` says
of what was read that it fits into the room that its reader had.  What every reader of a level
keeps to is `Bounded`, and the induction is the one of `Sound`, on the levels.

There is one collection that takes no level.  A sequence at the indentation of its key is read
by the readers of the level below without a look at the room, and so it may stand where none is
left.  It cannot go on from there: its items are read where nothing is left either, so they are
scalars.  `Overhangs` is such a sequence, and `parse_depth` says that it is the only way past
the limit, and one level past it at most.
-/
import Mathlib
import YamlDecode.Proofs.Document.Address

namespace YamlDecode

namespace Document

open YamlDecode.Text

/-! ### Room -/

/-- The node is no collection, and has no children. -/
structure IsScalar (r : Rose Label) : Prop where
  tag : r.label.tag.isContainer = false
  childless : r.children = []

/-- A sequence of scalars at that column, for which no room is needed. -/
structure Overhangs (column : Nat) (r : Rose Label) : Prop where
  sequence : r.label.tag = .seq
  column : r.label.column = column
  scalars : ∀ c ∈ r.children, IsScalar c

/-- The node takes up no more levels than there is room for, but for sequences that overhang
where the last level is a mapping. -/
def Within : Nat → Rose Label → Prop
  | 0, r => IsScalar r
  | room + 1, r => ∀ c ∈ r.children, Within room c ∨
      room = 0 ∧ r.label.tag = .map ∧ Overhangs r.label.column c

theorem IsScalar.within {r : Rose Label} (h : IsScalar r) (room : Nat) : Within room r := by
  cases room with
  | zero => exact h
  | succ room =>
      intro c hc
      rw [h.childless] at hc
      cases hc

theorem within_leaf {tag : Tag} (h : tag.isContainer = false) (room : Nat) (value : List Char)
    (line column : Nat) : Within room (leaf tag value line column) :=
  IsScalar.within (r := leaf tag value line column) ⟨h, rfl⟩ room

/-- What fits fits into more room. -/
theorem Within.succ {room : Nat} : ∀ {r : Rose Label}, Within room r → Within (room + 1) r := by
  induction room with
  | zero => exact fun h => h.within 1
  | succ room ih =>
      intro r h c hc
      rcases h c hc with hwithin | ⟨rfl, -, hover⟩
      · exact .inl (ih hwithin)
      · exact .inl fun below hbelow => .inl (hover.scalars below hbelow)

theorem within_collection {room : Nat} {cs : List (Rose Label)} (l : Label)
    (h : ∀ c ∈ cs, Within room c) : Within (room + 1) (.node l cs) :=
  fun c hc => .inl (h c hc)

theorem readKey_within {line column : Nat} {text : List Char} {key : Rose Label}
    (h : readKey line column text = .ok key) (room : Nat) : Within room key := by
  rcases readKey_eq_ok h with ⟨value, behind, -, -, rfl⟩ | ⟨-, rfl⟩
  · exact within_leaf rfl _ _ _ _
  · exact within_leaf (Tag.isContainer_ofPlain _) _ _ _ _

/-! ### Values on one line -/

/-- What is true of the nodes of each item is true of all nodes. -/
theorem forall_nodes_of_forall₂ {P : Rose Label → Prop} {α : Type} {R : α → Item → Prop}
    (hitem : ∀ x item, R x item → ∀ c ∈ item.nodes, P c) {xs : List α} {items : List Item}
    (h : List.Forall₂ R xs items) : ∀ c ∈ items.flatMap Item.nodes, P c := by
  induction h with
  | nil => nofun
  | cons hfirst _ ih =>
      rw [List.flatMap_cons]
      exact List.forall_mem_append.2 ⟨hitem _ _ hfirst, ih⟩

theorem readInline_within {room line : Nat} : ∀ {column : Nat} {text : List Char}
    {node : Rose Label}, readInline room line column text = .ok node → Within room node := by
  induction room with
  | zero => nofun
  | succ room ih =>
      intro column text node h
      unfold readInline at h
      simp only at h
      split at h
      · cases h
      split at h
      · split at h
        · cases h
        · split at h
          · cases h
            exact within_leaf rfl _ _ _ _
          · cases h
      unfold readUnquoted at h
      split at h
      · split at h
        · cases h
        · obtain ⟨nodes, hnodes, h⟩ := exists_of_bind_eq_ok h
          cases h
          obtain ⟨items, hitems, -, rfl⟩ := flowItems_eq_ok hnodes
          refine within_collection _ (forall_nodes_of_forall₂ ?_ hitems)
          intro p item hentry
          obtain ⟨before, after, key, value, -, hkey, hvalue, hpair⟩ := flowEntry_eq_ok hentry
          rw [hpair]
          simp only [List.forall_mem_cons, List.not_mem_nil, false_imp_iff, implies_true, and_true]
          exact ⟨readKey_within hkey room, ih hvalue⟩
      · split at h
        · cases h
        · obtain ⟨nodes, hnodes, h⟩ := exists_of_bind_eq_ok h
          cases h
          obtain ⟨items, hitems, -, rfl⟩ := flowItems_eq_ok hnodes
          refine within_collection _ (forall_nodes_of_forall₂ ?_ hitems)
          intro p item hitem
          obtain ⟨value, hvalue, hsingle⟩ := flowItem_eq_ok hitem
          rw [hsingle]
          simpa using ih hvalue
      · cases h
        exact within_leaf (Tag.isContainer_ofPlain _) _ _ _ _

/-! ### Blocks -/

/-- What is read fits into the room, or overhangs where there is none. -/
structure Bounded (room : Nat) (inner : Readers) : Prop where
  block : ∀ {indent : Nat} {ls after : List Line} {node : Rose Label},
    inner.block indent ls = .ok (node, after) → Within room node
  sequence : ∀ {indent : Nat} {ls after : List Line} {node : Rose Label},
    inner.sequence indent ls = .ok (node, after) →
      Within room node ∨ room = 0 ∧ Overhangs (indent + 1) node
  inline : ∀ {line column : Nat} {text : List Char} {node : Rose Label},
    inner.inline line column text = .ok node → Within room node

variable {inner : Readers} {room : Nat}

/-- A value fits, unless it is a sequence at the indentation of its key. -/
theorem Bounded.readValue (hinner : Bounded room inner) {compact : Bool}
    {line indent column : Nat} {text : List Char} {ls after : List Line} {node : Rose Label}
    (h : readValue inner compact line indent column text ls = .ok (node, after)) :
    Within room node ∨ compact = true ∧ room = 0 ∧ Overhangs (indent + 1) node := by
  unfold Document.readValue at h
  split at h
  · split at h
    · cases h
      exact .inl (within_leaf rfl _ _ _ _)
    · split at h
      · exact .inl (hinner.block h)
      split at h
      · next hcompact =>
        simp only [Bool.and_eq_true] at hcompact
        exact (hinner.sequence h).imp_right fun hover => ⟨hcompact.1.1, hover⟩
      · cases h
        exact .inl (within_leaf rfl _ _ _ _)
  · split at h
    · cases h
    · cases h
      exact .inl (within_leaf rfl _ _ _ _)
    · obtain ⟨node', hnode, hpair⟩ := exists_of_map_eq_ok h
      cases hpair
      exact .inl (hinner.inline hnode)

/-- What is true of the nodes of each item that is read is true of all nodes that are read. -/
theorem forall_nodes_of_reads {P : Rose Label → Prop} {σ : Type}
    {next : σ → Except ParseError (Option (Item × σ))}
    (hnext : ∀ s item s', next s = .ok (some (item, s')) → ∀ c ∈ item.nodes, P c)
    {s s' : σ} {items : List Item} (h : Reads next Eq s items s') :
    ∀ c ∈ items.flatMap Item.nodes, P c := by
  induction h with
  | nil _ => nofun
  | cons first value _ ih =>
      subst value
      rw [List.flatMap_cons]
      exact List.forall_mem_append.2 ⟨hnext _ _ _ first, ih⟩

theorem Bounded.readMapping (hinner : Bounded room inner) {indent : Nat} {ls after : List Line}
    {node : Rose Label} (h : readMapping inner indent ls = .ok (node, after)) :
    Within (room + 1) node := by
  unfold Document.readMapping at h
  obtain ⟨⟨nodes, after'⟩, hread, h⟩ := exists_of_bind_eq_ok h
  cases h
  obtain ⟨items, hreads, -, rfl⟩ := reads_of_readItems hread
  refine forall_nodes_of_reads ?_ hreads
  intro s item s' hentry
  obtain ⟨l, rest, before, behind, key, value, -, rfl, -, hkey, hvalue, rfl⟩ :=
    nextEntry_eq_some hentry
  simp only [List.forall_mem_cons, List.not_mem_nil, false_imp_iff, implies_true, and_true]
  refine ⟨.inl (readKey_within hkey room), ?_⟩
  exact (hinner.readValue hvalue).imp_right fun ⟨_, hroom, hover⟩ => ⟨hroom, rfl, hover⟩

/-- The items of a sequence fit into the room that is left behind its dash. -/
theorem Bounded.readSequence (hinner : Bounded room inner) {indent : Nat} {ls after : List Line}
    {node : Rose Label} (h : readSequence inner indent ls = .ok (node, after)) :
    node.label.tag = .seq ∧ node.label.column = indent + 1 ∧
      ∀ c ∈ node.children, Within room c := by
  unfold Document.readSequence at h
  obtain ⟨⟨nodes, after'⟩, hread, h⟩ := exists_of_bind_eq_ok h
  cases h
  obtain ⟨items, hreads, -, rfl⟩ := reads_of_readItems hread
  refine ⟨rfl, rfl, forall_nodes_of_reads ?_ hreads⟩
  intro s item s' hnext
  obtain ⟨l, rest, value, -, -, -, rfl, hvalue⟩ := nextItem_eq_some hnext
  rw [List.forall_mem_singleton]
  rcases hvalue with ⟨-, hblock⟩ | ⟨-, hvalue⟩
  · exact hinner.block hblock
  · rcases hinner.readValue hvalue with hwithin | ⟨hcompact, -⟩
    · exact hwithin
    · cases hcompact

theorem Bounded.readBlock (hinner : Bounded room inner) {indent : Nat} {ls after : List Line}
    {node : Rose Label} (h : readBlock inner indent ls = .ok (node, after)) :
    Within (room + 1) node := by
  unfold Document.readBlock at h
  split at h
  · cases h
  split at h
  · cases h
  split at h
  · obtain ⟨-, -, hitems⟩ := hinner.readSequence h
    exact fun c hc => .inl (hitems c hc)
  split at h
  · exact hinner.readMapping h
  · obtain ⟨node', hnode, hpair⟩ := exists_of_map_eq_ok h
    cases hpair
    exact (hinner.inline hnode).succ

/-- Where readers go no deeper, nothing is read. -/
theorem bounded_noReaders : Bounded 0 noReaders where
  block h := absurd h (refuseDeeper_ne_ok _ _ _)
  sequence h := absurd h (refuseDeeper_ne_ok _ _ _)
  inline := nofun

theorem bounded_readers : ∀ room, Bounded room (readers room)
  | 0 =>
    { block := fun h => absurd h (refuseDeeper_ne_ok _ _ _)
      -- The room is not looked at, and what reads the items has none.
      sequence := fun h => by
        obtain ⟨hseq, hcolumn, hitems⟩ := bounded_noReaders.readSequence h
        exact .inr ⟨rfl, hseq, hcolumn, hitems⟩
      inline := nofun }
  | room + 1 =>
    { block := fun h => (bounded_readers room).readBlock h
      sequence := fun h => by
        obtain ⟨-, -, hitems⟩ := (bounded_readers room).readSequence h
        exact .inl fun c hc => .inl (hitems c hc)
      inline := fun h => readInline_within h }

theorem read_within {text : List Char} {node : Rose Label} (h : Document.read text = .ok node) :
    Within (maxDepth + 1) node := by
  unfold Document.read at h
  simp only at h
  split at h
  · cases h
  obtain ⟨⟨node', last⟩, hread, hnode⟩ := exists_of_map_eq_ok h
  cases hnode
  rw [readRoot_eq] at hread
  split at hread
  · cases hread
    exact within_leaf rfl _ _ _ _
  · obtain ⟨⟨root, after⟩, hblock, hfinish⟩ := exists_of_bind_eq_ok hread
    obtain rfl := finish_eq_ok hfinish
    exact (bounded_readers (maxDepth + 1)).block hblock

end Document

namespace Tree

open Document

variable {t : Tree}

/-- The labels of a node and of all that hangs below it. -/
def Ref.labels (r : Ref t) : Rose Label := r.view.map Ref.label

theorem Ref.labels_eq (r : Ref t) : r.labels = .node r.label (r.children.map Ref.labels) :=
  r.map_view

theorem Ref.isScalar_labels {r : Ref t} :
    IsScalar r.labels ↔ r.kind = .scalar ∧ r.children = [] := by
  rw [labels_eq]
  constructor
  · intro h
    exact ⟨isContainer_eq_false.1 h.tag, List.map_eq_nil_iff.1 h.childless⟩
  · rintro ⟨hkind, hchildren⟩
    exact ⟨isContainer_eq_false.2 hkind, List.map_eq_nil_iff.2 hchildren⟩

/-- The node is a sequence of scalars at the indentation of its key. -/
structure Ref.Overhanging (r : Ref t) : Prop where
  sequence : r.tag = .seq
  mapping : ∃ p, r.parent? = some p ∧ p.tag = .map ∧ r.column = p.column
  scalars : ∀ c ∈ r.children, c.kind = .scalar

theorem Ref.overhanging_of_labels {r p : Ref t} (hparent : r.parent? = some p)
    (hmap : p.tag = .map) (h : Overhangs p.column r.labels) : r.Overhanging := by
  rw [labels_eq] at h
  refine ⟨h.sequence, ⟨p, hparent, hmap, h.column⟩, ?_⟩
  intro c hc
  exact (isScalar_labels.1 (h.scalars c.labels (List.mem_map_of_mem hc))).1

/-- Where a node may stand if the first one had that room: as deep as the levels that are taken,
or where something overhangs. -/
inductive Ref.Placed (room : Nat) (r : Ref t) : Prop
  | level (left : Nat) (depth : left + {a | r.Below a}.ncard = room) (fits : Within left r.labels)
  | overhanging (depth : {a | r.Below a}.ncard = room) (hangs : r.Overhanging)
      (scalars : ∀ c ∈ r.children, IsScalar c.labels)
  | scalar (scalar : IsScalar r.labels)

theorem Ref.Placed.child {room : Nat} {p c : Ref t} (h : p.Placed room) (hc : c ∈ p.children)
    (hparent : c.parent? = some p) : c.Placed room := by
  have hdepth := Ref.ncard_below_of_child hparent
  cases h with
  | level left depth fits =>
      cases left with
      | zero =>
          rw [(isScalar_labels.1 fits).2] at hc
          cases hc
      | succ left =>
          rw [labels_eq] at fits
          rcases fits c.labels (List.mem_map_of_mem hc) with hwithin | ⟨rfl, hmap, hover⟩
          · exact .level left (by omega) hwithin
          · have hscalars : ∀ d ∈ c.children, IsScalar d.labels := by
              intro d hd
              refine hover.scalars d.labels ?_
              rw [labels_eq]
              exact List.mem_map_of_mem hd
            exact .overhanging (by omega) (overhanging_of_labels hparent hmap hover) hscalars
  | overhanging _ _ scalars => exact .scalar (scalars c hc)
  | scalar scalar =>
      rw [(isScalar_labels.1 scalar).2] at hc
      cases hc

end Tree

/-- **Collections stand no deeper than the limit**, unless they are sequences of scalars at the
indentation of their keys, which stand one level deeper at most. -/
theorem parse_depth {text : String} {t : Tree} (h : parse text = .ok t) (r : Tree.Ref t)
    (hr : r.kind ≠ .scalar) :
    {a | r.Below a}.ncard ≤ Document.maxDepth ∨
      {a | r.Below a}.ncard = Document.maxDepth + 1 ∧ r.Overhanging := by
  obtain ⟨node, hread, rfl⟩ := exists_read_of_parse h
  obtain ⟨hlinked, hrooted⟩ := Tree.linked_ofRose node
  obtain ⟨root, hroot, hlabels⟩ := Tree.map_view_ofRose node
  have hplaced : ∀ r : Tree.Ref (Tree.ofRose node), r.Placed (Document.maxDepth + 1) := by
    refine hlinked.induction hrooted ?_ ?_
    · intro first hid
      obtain rfl : root = first := Tree.Ref.eq_of_id ((Tree.root?_eq_some.1 hroot).trans hid.symm)
      have hnone := hrooted.parent?_eq_none.2 hid
      refine .level (Document.maxDepth + 1) (by rw [Tree.Ref.ncard_below_of_root hnone]) ?_
      rw [Tree.Ref.labels, hlabels]
      exact Document.read_within hread
    · intro p c hc ih
      exact ih.child hc (hlinked.mem_children.1 hc)
  cases hplaced r with
  | level left depth fits =>
      cases left with
      | zero => exact absurd (Tree.Ref.isScalar_labels.1 fits).1 hr
      | succ left => exact .inl (by omega)
  | overhanging depth hangs _ => exact .inr ⟨depth, hangs⟩
  | scalar scalar => exact absurd (Tree.Ref.isScalar_labels.1 scalar).1 hr

/-- A sequence at the indentation of its key, within the limit. -/
theorem parse_depth_compact :
    ∃ t, parse "k:\n- a\n" = .ok t ∧ ∃ r : Tree.Ref t, r.kind ≠ .scalar ∧
      ({a | r.Below a}.ncard ≤ Document.maxDepth ∨
        {a | r.Below a}.ncard = Document.maxDepth + 1 ∧ r.Overhanging) := by
  have hread : Document.read "k:\n- a\n".toList = .ok
      (.node ⟨.map, "", 1, 1⟩ [Document.leaf .str ['k'] 1 1,
        .node ⟨.seq, "", 2, 1⟩ [Document.leaf .str ['a'] 2 3]]) := by cbv
  have hparse := congrArg (Except.map Tree.ofRose) hread
  exact ⟨_, hparse, ⟨2, by decide +kernel⟩, by decide +kernel,
    parse_depth hparse ⟨2, by decide +kernel⟩ (by decide +kernel)⟩

/-- A mapping behind 64 dashes, whose key is followed by a sequence at its own indentation. -/
def overhangingText : List Char :=
  (List.replicate 64 ['-', ' ']).flatten ++ ['a', ':', '\n'] ++ List.replicate 128 ' ' ++
    ['-', '\n']

/-- The parents and the tags of its nodes: sequences each in the one before, and the mapping. -/
def overhangingNodes : List (Option Nat × Tag) :=
  (none, .seq) :: (List.range 63).map (fun i => (some i, .seq)) ++
    [(some 63, .map), (some 64, .str), (some 64, .seq), (some 66, .null)]

theorem read_overhangingText :
    ((Document.read overhangingText).toOption.map fun node =>
      (Tree.ofRose node).entries.toList.map fun e => (e.parent, e.label.tag)) =
        some overhangingNodes := by
  decide +kernel

/-- If nodes hang below each other one by one, a node is as deep as its number. -/
theorem Tree.Ref.ncard_below_of_chain {t : Tree} (hroot : t.Rooted) {n : Nat}
    (hchain : ∀ r : Ref t, r.id < n → ∃ c : Ref t, c.id = r.id + 1 ∧ c.parent? = some r) :
    ∀ r : Ref t, r.id ≤ n → {a | r.Below a}.ncard = r.id := by
  intro r hr
  induction hid : r.id generalizing r with
  | zero => exact ncard_below_of_root (hroot.parent?_eq_none.2 hid)
  | succ i ih =>
      have hlt : i < t.entries.size := by
        have := r.inTree
        omega
      obtain ⟨c, hc, hparent⟩ := hchain ⟨i, hlt⟩ (by show i < n; omega)
      obtain rfl : c = r := eq_of_id (hc.trans hid.symm)
      rw [ncard_below_of_child hparent, ih ⟨i, hlt⟩ (by show i ≤ n; omega) rfl]

/-- A sequence past the limit. -/
theorem compact_past_limit :
    ∃ t, parse (String.ofList overhangingText) = .ok t ∧ ∃ r : Tree.Ref t, r.tag = .seq ∧
      ¬{a | r.Below a}.ncard ≤ Document.maxDepth := by
  obtain ⟨node, hsome, hnodes⟩ := Option.map_eq_some_iff.1 read_overhangingText
  have hparse : parse (String.ofList overhangingText) = .ok (Tree.ofRose node) := by
    rw [parse, String.toList_ofList]
    cases hread : Document.read overhangingText with
    | error e => cases (congrArg Except.toOption hread).symm.trans hsome
    | ok node' =>
        rw [Option.some.inj ((congrArg Except.toOption hread).symm.trans hsome)]
        rfl
  generalize Tree.ofRose node = t at hnodes hparse
  have hsize : t.entries.size = 68 := by
    rw [← Array.length_toList, ← List.length_map, hnodes]
    rfl
  have hentry : ∀ r : Tree.Ref t, overhangingNodes[r.id]? = some (r.entry.parent, r.tag) := by
    intro r
    rw [← hnodes, List.getElem?_map, Array.getElem?_toList, r.entry_eq]
    rfl
  have hparent : ∀ p c : Tree.Ref t,
      (overhangingNodes[c.id]?).map Prod.fst = some (some p.id) → c.parent? = some p := by
    intro p c hc
    rw [hentry c] at hc
    exact Tree.Ref.parent?_eq_some.2 (Option.some.inj hc)
  have hchain : ∀ r : Tree.Ref t, r.id < 64 → ∃ c : Tree.Ref t, c.id = r.id + 1 ∧
      c.parent? = some r := by
    intro r hr
    have hnext : ∀ i < 64, (overhangingNodes[i + 1]?).map Prod.fst = some (some i) := by decide
    exact ⟨⟨r.id + 1, by omega⟩, rfl, hparent r _ (hnext r.id hr)⟩
  have hdepth := Tree.Ref.ncard_below_of_chain (parse_addressable hparse).rooted hchain
    ⟨64, by omega⟩ (Nat.le_refl _)
  have hlast := hparent ⟨64, by omega⟩ ⟨66, by omega⟩ rfl
  refine ⟨t, hparse, ⟨66, by omega⟩, ?_, ?_⟩
  · exact congrArg Prod.snd (Option.some.inj (hentry ⟨66, by omega⟩)).symm
  · rw [Tree.Ref.ncard_below_of_child hlast, hdepth]
    exact Nat.not_succ_le_self 64

end YamlDecode
