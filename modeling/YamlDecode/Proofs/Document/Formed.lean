/-
Documents are well formed.

What each node promises of itself and of its children is `Formed`: a scalar has no children,
a collection has no text of its own and not too many items, and every other child of a mapping
is a scalar, since it is a key.  By the rules this is so at every node of what is read.

How the nodes are numbered and linked is settled when they are added to a tree.  Since that
tree has the same nodes below each node, `parse_wellFormed` puts both together.
-/
import Mathlib
import YamlDecode.Proofs.Document.Soundness
import YamlDecode.Proofs.Tree.Preorder

namespace YamlDecode

open Document

/-! ### What a node promises -/

/-- The children of a mapping are keys, each with a value behind it. -/
inductive Keyed : List (Rose Label) → Prop
  | nil : Keyed []
  | cons {key value : Rose Label} {rest : List (Rose Label)}
      (scalar : key.label.tag.isContainer = false) (more : Keyed rest) :
      Keyed (key :: value :: rest)

namespace Keyed

variable {cs : List (Rose Label)}

theorem even (h : Keyed cs) : cs.length % 2 = 0 := by
  induction h with
  | nil => rfl
  | cons _ _ ih =>
      rw [List.length_cons, List.length_cons]
      omega

/-- The children at even places are the keys. -/
theorem key (h : Keyed cs) : ∀ {i : Nat} {c : Rose Label}, cs[2 * i]? = some c →
    c.label.tag.isContainer = false := by
  induction h with
  | nil => nofun
  | cons scalar _ ih =>
      intro i c hc
      cases i with
      | zero =>
          obtain rfl := Option.some.inj hc
          exact scalar
      | succ i => exact ih hc

end Keyed

/-- A node says what its tag lets it say, and has the children that its tag lets it have. -/
structure Formed (r : Rose Label) : Prop where
  childless : r.label.tag.isContainer = false → r.children = []
  textless : r.label.tag.isContainer = true → r.label.value = ""
  items : r.label.tag = .seq → r.children.length ≤ maxItems
  entries : r.label.tag = .map → Keyed r.children ∧ r.children.length ≤ 2 * maxItems

theorem formed_leaf {tag : Tag} (h : tag.isContainer = false) (value : List Char)
    (line column : Nat) : (leaf tag value line column).Every Formed := by
  refine .node ⟨fun _ => rfl, fun hcontainer => ?_, ?_, ?_⟩ (List.forall_mem_nil _)
  · exact absurd (h.symm.trans hcontainer) Bool.false_ne_true
  · rintro rfl
    cases h
  · rintro rfl
    cases h

theorem formed_seq {cs : List (Rose Label)} (hbelow : ∀ c ∈ cs, c.Every Formed)
    (hcount : cs.length ≤ maxItems) (line column : Nat) :
    (Rose.node ⟨.seq, "", line, column⟩ cs).Every Formed :=
  .node ⟨nofun, fun _ => rfl, fun _ => hcount, nofun⟩ hbelow

theorem formed_map {cs : List (Rose Label)} (hkeyed : Keyed cs)
    (hbelow : ∀ c ∈ cs, c.Every Formed) (hcount : cs.length ≤ 2 * maxItems) (line column : Nat) :
    (Rose.node ⟨.map, "", line, column⟩ cs).Every Formed :=
  .node ⟨nofun, fun _ => rfl, nofun, fun _ => ⟨hkeyed, hcount⟩⟩ hbelow

theorem formed_key {line column : Nat} {text : List Char} {key : Rose Label}
    (h : readKey line column text = .ok key) :
    key.label.tag.isContainer = false ∧ key.Every Formed := by
  rcases readKey_eq_ok h with ⟨value, behind, -, -, rfl⟩ | ⟨-, rfl⟩
  · exact ⟨rfl, formed_leaf rfl _ _ _⟩
  · exact ⟨Tag.isContainer_ofPlain _, formed_leaf (Tag.isContainer_ofPlain _) _ _ _⟩

/-! ### What is read -/

/-- What a mapping promises of its children, and what these promise. -/
def FormedEntries (cs : List (Rose Label)) : Prop := Keyed cs ∧ ∀ c ∈ cs, c.Every Formed

theorem FormedEntries.nil : FormedEntries [] := ⟨.nil, nofun⟩

theorem FormedEntries.cons {line column : Nat} {text : List Char} {key value : Rose Label}
    {cs : List (Rose Label)} (hkey : readKey line column text = .ok key)
    (hvalue : value.Every Formed) (h : FormedEntries cs) : FormedEntries (key :: value :: cs) := by
  obtain ⟨hscalar, hformed⟩ := formed_key hkey
  exact ⟨.cons hscalar h.1,
    List.forall_mem_cons.2 ⟨hformed, List.forall_mem_cons.2 ⟨hvalue, h.2⟩⟩⟩

namespace Document.Grammar

mutual

theorem Inline.formed {line column : Nat} {text : List Char} {node : Rose Label} :
    Inline line column text node → node.Every Formed
  | .quoted _ _ => formed_leaf rfl _ _ _
  | .word _ _ _ => formed_leaf (Tag.isContainer_ofPlain _) _ _ _
  | .mapping _ _ entries count => formed_map entries.formed.1 entries.formed.2 count _ _
  | .sequence _ _ items count => formed_seq items.formed count _ _

theorem FlowEntries.formed {line column : Nat} {ps : List Text.Scanner.Piece}
    {nodes : List (Rose Label)} : FlowEntries line column ps nodes → FormedEntries nodes
  | .nil => .nil
  | .cons _ readsKey readsValue rest => .cons readsKey readsValue.formed rest.formed

theorem FlowItems.formed {line column : Nat} {ps : List Text.Scanner.Piece}
    {nodes : List (Rose Label)} : FlowItems line column ps nodes → ∀ c ∈ nodes, c.Every Formed
  | .nil => nofun
  | .cons readsValue rest => List.forall_mem_cons.2 ⟨readsValue.formed, rest.formed⟩

end

mutual

theorem Block.formed {ls after : List Line} {node : Rose Label} :
    Block ls node after → node.Every Formed
  | .sequence _ read => read.formed
  | .mapping _ _ entries count => formed_map entries.formed.1 entries.formed.2 count _ _
  | .inline _ read => read.formed

theorem Sequence.formed {ls after : List Line} {node : Rose Label} :
    Sequence ls node after → node.Every Formed
  | .items _ items count => formed_seq items.formed count _ _

theorem Entries.formed {indent : Nat} {ls after : List Line} {nodes : List (Rose Label)} :
    Entries indent ls nodes after → FormedEntries nodes
  | .nil _ => .nil
  | .cons _ _ _ readsKey readsValue more => .cons readsKey readsValue.formed more.formed

theorem Items.formed {indent : Nat} {ls after : List Line} {nodes : List (Rose Label)} :
    Items indent ls nodes after → ∀ c ∈ nodes, c.Every Formed
  | .nil _ => nofun
  | .block _ _ _ _ readsValue more => List.forall_mem_cons.2 ⟨readsValue.formed, more.formed⟩
  | .value _ _ _ _ readsValue more => List.forall_mem_cons.2 ⟨readsValue.formed, more.formed⟩

theorem Value.formed {compact : Bool} {l : Line} {text : List Char} {ls after : List Line}
    {node : Rose Label} : Value compact l text ls node after → node.Every Formed
  | .deeper _ _ _ read => read.formed
  | .compact _ _ _ read => read.formed
  | .null _ => formed_leaf rfl _ _ _
  | .scalar _ _ => formed_leaf rfl _ _ _
  | .inline read => read.formed

end

end Document.Grammar

theorem read_formed {text : List Char} {node : Rose Label} (h : Document.read text = .ok node) :
    node.Every Formed := by
  rcases read_sound h with ⟨-, rfl⟩ | ⟨last, hblock⟩
  · exact formed_leaf rfl _ _ _
  · exact hblock.formed

/-! ### Trees of documents -/

theorem exists_read_of_parse {text : String} {t : Tree} (h : parse text = .ok t) :
    ∃ node, Document.read text.toList = .ok node ∧ t = Tree.ofRose node := by
  obtain ⟨node, hread, rfl⟩ := exists_of_map_eq_ok h
  exact ⟨node, hread, rfl⟩

/-- The tree below each node of a document promises what it should. -/
theorem parse_formed {text : String} {t : Tree} (h : parse text = .ok t) (r : Tree.Ref t) :
    (r.view.map Tree.Ref.label).Every Formed := by
  obtain ⟨node, hread, rfl⟩ := exists_read_of_parse h
  exact Tree.every_view (read_formed hread) r

/-- What is true of every tree of a document. -/
structure WellFormed (t : Tree) : Prop where
  /-- There is a first node, and it is the only one without a parent. -/
  rooted : 0 < t.size ∧ ∀ r : Tree.Ref t, r.parent? = none ↔ r.id = 0
  /-- What a node lists as a child at a place is what has it as its parent, and that place. -/
  linked : ∀ (p c : Tree.Ref t) (i : Nat),
    p.children[i]? = some c ↔ c.parent? = some p ∧ c.slot = i
  /-- What hangs below a node is numbered right behind it, in reading order. -/
  preorder : ∀ r : Tree.Ref t, ∃ n, r.view.preorder.map Tree.Ref.id = List.range' r.id (n + 1) ∧
    ∀ s : Tree.Ref t, s.Below r ↔ r.id < s.id ∧ s.id ≤ r.id + n
  scalars : ∀ r : Tree.Ref t, r.kind = .scalar → r.children = []
  sequences : ∀ r : Tree.Ref t, r.tag = .seq → r.value = "" ∧ r.children.length ≤ maxItems
  /-- The children of a mapping are keys and values in turn, and keys are scalars. -/
  mappings : ∀ r : Tree.Ref t, r.tag = .map → r.value = "" ∧
    ∃ n ≤ maxItems, r.children.length = 2 * n ∧
      ∀ i < n, ∃ key, r.children[2 * i]? = some key ∧ key.kind = .scalar ∧ key.children = []

theorem Tree.Ref.isContainer_eq_false {t : Tree} {r : Ref t} :
    r.tag.isContainer = false ↔ r.kind = .scalar := by
  simp [Tag.isContainer, kind]

/-- **The tree of a document is well formed.** -/
theorem parse_wellFormed {text : String} {t : Tree} (h : parse text = .ok t) : WellFormed t := by
  have hformed : ∀ r : Tree.Ref t,
      Formed (.node r.label (r.children.map fun c => c.view.map Tree.Ref.label)) :=
    fun r => r.map_view ▸ (parse_formed h r).self
  have hscalars : ∀ r : Tree.Ref t, r.kind = .scalar → r.children = [] := fun r hr =>
    List.map_eq_nil_iff.1 ((hformed r).childless (Tree.Ref.isContainer_eq_false.2 hr))
  obtain ⟨node, -, rfl⟩ := exists_read_of_parse h
  obtain ⟨hlinked, hrooted⟩ := Tree.linked_ofRose node
  refine ⟨⟨?_, fun r => hrooted.parent?_eq_none⟩, ?_, Tree.below_ofRose, hscalars, ?_, ?_⟩
  · rw [(Tree.stands_ofRose node).2]
    exact node.size_pos
  · intro p c i
    rw [Tree.Ref.getElem?_children]
    exact hlinked.child?_iff
  · intro r hr
    have hitems := (hformed r).items hr
    rw [Rose.children_node, List.length_map] at hitems
    exact ⟨(hformed r).textless (congrArg Tag.isContainer hr), hitems⟩
  · intro r hr
    obtain ⟨hkeyed, hcount⟩ := (hformed r).entries hr
    have heven := hkeyed.even
    rw [Rose.children_node, List.length_map] at hcount heven
    refine ⟨(hformed r).textless (congrArg Tag.isContainer hr), r.children.length / 2, by omega,
      by omega, ?_⟩
    intro i hi
    obtain ⟨key, hkey⟩ : ∃ key, r.children[2 * i]? = some key :=
      ⟨_, List.getElem?_eq_getElem (by omega)⟩
    have hscalar : (key.view.map Tree.Ref.label).label.tag.isContainer = false := by
      refine hkeyed.key (i := i) ?_
      rw [Rose.children_node, List.getElem?_map, hkey]
      rfl
    rw [key.map_view, Rose.label_node] at hscalar
    have hkind := Tree.Ref.isContainer_eq_false.1 hscalar
    exact ⟨key, hkey, hkind, hscalars key hkind⟩

/-- A sequence at the indentation of its key, of a flow mapping and of a block scalar. -/
theorem wellFormed_sequence :
    ∃ t, parse "k:\n- \x7ba: [1]\x7d\n- |\n  t\n" = .ok t ∧ WellFormed t := by
  have hread : Document.read "k:\n- \x7ba: [1]\x7d\n- |\n  t\n".toList = .ok
      (.node ⟨.map, "", 1, 1⟩ [leaf .str ['k'] 1 1, .node ⟨.seq, "", 2, 1⟩
        [.node ⟨.map, "", 2, 3⟩ [leaf .str ['a'] 2 4, .node ⟨.seq, "", 2, 7⟩ [leaf .int ['1'] 2 8]],
          leaf .str ['t', '\n'] 3 3]]) := by cbv
  have hparse := congrArg (Except.map Tree.ofRose) hread
  exact ⟨_, hparse, parse_wellFormed hparse⟩

end YamlDecode
