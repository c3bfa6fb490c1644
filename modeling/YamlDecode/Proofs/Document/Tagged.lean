/-
Tags and texts of a document agree.

A decoder goes by the tag of a node and then reads its text again.  In a tree built by hand the
two have nothing to do with each other; in a document a tag comes from one of three places, which
`Label.Tagged` names.  A collection is tagged by its form and has no text.  A quoted text and a
block scalar are texts, whatever they say.  Everything else is a word, and its tag is what
`Tag.ofPlain` makes of it, so a word that is tagged as a truth value spells one, and one that is
tagged as a number can be read as one.

By the rules this is so at every node of what is read.
-/
import YamlDecode.Proofs.Document.Formed

namespace YamlDecode

open Document

/-- The node's form gives its tag, or else its text does, unless that was marked as a text. -/
inductive Label.Tagged (l : Label) : Prop
  | collection (container : l.tag.isContainer = true)
  | text (str : l.tag = .str)
  | word (plain : l.tag = Tag.ofPlain l.value.toList)

/-! ### What a tag says of a text -/

theorem Tag.isTruth_of_ofPlain {cs : List Char} (h : Tag.ofPlain cs = .bool) :
    isTrueWord cs = true ∨ isFalseWord cs = true := by
  rw [Tag.ofPlain] at h
  split at h
  · cases h
  · split at h
    · next hword => exact Bool.or_eq_true_iff.1 hword
    · split at h
      · cases h
      · split at h <;> cases h

theorem Tag.readWord_of_ofPlain {cs : List Char} (h : Tag.ofPlain cs = .int) :
    (readWord cs).isSome = true := by
  rw [Tag.ofPlain] at h
  split at h
  · cases h
  · split at h
    · cases h
    · split at h
      · assumption
      · split at h <;> cases h

theorem Tag.read_of_ofPlain {cs : List Char} (h : Tag.ofPlain cs = .float) :
    (Double.read cs).isSome = true := by
  rw [Tag.ofPlain] at h
  split at h
  · cases h
  · split at h
    · cases h
    · split at h
      · cases h
      · split at h
        · assumption
        · cases h

namespace Label.Tagged

variable {l : Label}

/-- The text of a node that is neither a collection nor a text gives its tag. -/
theorem eq_ofPlain (h : l.Tagged) (hscalar : l.tag.isContainer = false) (hstr : l.tag ≠ .str) :
    Tag.ofPlain l.value.toList = l.tag := by
  cases h with
  | collection container => exact absurd (hscalar.symm.trans container) Bool.false_ne_true
  | text str => exact absurd str hstr
  | word plain => exact plain.symm

theorem isTruth (h : l.Tagged) (hbool : l.tag = .bool) :
    isTrueWord l.value.toList = true ∨ isFalseWord l.value.toList = true :=
  Tag.isTruth_of_ofPlain ((h.eq_ofPlain (hbool ▸ rfl) (hbool ▸ nofun)).trans hbool)

theorem readWord (h : l.Tagged) (hint : l.tag = .int) :
    (readWord l.value.toList).isSome = true :=
  Tag.readWord_of_ofPlain ((h.eq_ofPlain (hint ▸ rfl) (hint ▸ nofun)).trans hint)

theorem readDouble (h : l.Tagged) (hfloat : l.tag = .float) :
    (Double.read l.value.toList).isSome = true :=
  Tag.read_of_ofPlain ((h.eq_ofPlain (hfloat ▸ rfl) (hfloat ▸ nofun)).trans hfloat)

end Label.Tagged

/-! ### What is read -/

/-- The label at the top is tagged as it should be. -/
def TaggedRoot (r : Rose Label) : Prop := r.label.Tagged

theorem tagged_text (value : List Char) (line column : Nat) :
    (leaf .str value line column).Every TaggedRoot :=
  .node (.text rfl) (List.forall_mem_nil _)

theorem tagged_word (word : List Char) (line column : Nat) :
    (leaf (Tag.ofPlain word) word line column).Every TaggedRoot := by
  refine .node (.word ?_) (List.forall_mem_nil _)
  show Tag.ofPlain word = Tag.ofPlain (String.ofList word).toList
  rw [String.toList_ofList]

theorem tagged_key {line column : Nat} {text : List Char} {key : Rose Label}
    (h : readKey line column text = .ok key) : key.Every TaggedRoot := by
  rcases readKey_eq_ok h with ⟨value, behind, -, -, rfl⟩ | ⟨-, rfl⟩
  · exact tagged_text value line column
  · exact tagged_word _ line column

namespace Document.Grammar

mutual

theorem Inline.tagged {line column : Nat} {text : List Char} {node : Rose Label} :
    Inline line column text node → node.Every TaggedRoot
  | .quoted _ _ => tagged_text _ _ _
  | .word _ _ _ => tagged_word _ _ _
  | .mapping _ _ entries _ => .node (.collection rfl) entries.tagged
  | .sequence _ _ items _ => .node (.collection rfl) items.tagged

theorem FlowEntries.tagged {line column : Nat} {ps : List Text.Scanner.Piece}
    {nodes : List (Rose Label)} :
    FlowEntries line column ps nodes → ∀ c ∈ nodes, c.Every TaggedRoot
  | .nil => nofun
  | .cons _ readsKey readsValue rest => List.forall_mem_cons.2
      ⟨tagged_key readsKey, List.forall_mem_cons.2 ⟨readsValue.tagged, rest.tagged⟩⟩

theorem FlowItems.tagged {line column : Nat} {ps : List Text.Scanner.Piece}
    {nodes : List (Rose Label)} :
    FlowItems line column ps nodes → ∀ c ∈ nodes, c.Every TaggedRoot
  | .nil => nofun
  | .cons readsValue rest => List.forall_mem_cons.2 ⟨readsValue.tagged, rest.tagged⟩

end

mutual

theorem Block.tagged {ls after : List Line} {node : Rose Label} :
    Block ls node after → node.Every TaggedRoot
  | .sequence _ read => read.tagged
  | .mapping _ _ entries _ => .node (.collection rfl) entries.tagged
  | .inline _ read => read.tagged

theorem Sequence.tagged {ls after : List Line} {node : Rose Label} :
    Sequence ls node after → node.Every TaggedRoot
  | .items _ items _ => .node (.collection rfl) items.tagged

theorem Entries.tagged {indent : Nat} {ls after : List Line} {nodes : List (Rose Label)} :
    Entries indent ls nodes after → ∀ c ∈ nodes, c.Every TaggedRoot
  | .nil _ => nofun
  | .cons _ _ _ readsKey readsValue more => List.forall_mem_cons.2
      ⟨tagged_key readsKey, List.forall_mem_cons.2 ⟨readsValue.tagged, more.tagged⟩⟩

theorem Items.tagged {indent : Nat} {ls after : List Line} {nodes : List (Rose Label)} :
    Items indent ls nodes after → ∀ c ∈ nodes, c.Every TaggedRoot
  | .nil _ => nofun
  | .block _ _ _ _ readsValue more => List.forall_mem_cons.2 ⟨readsValue.tagged, more.tagged⟩
  | .value _ _ _ _ readsValue more => List.forall_mem_cons.2 ⟨readsValue.tagged, more.tagged⟩

theorem Value.tagged {compact : Bool} {l : Line} {text : List Char} {ls after : List Line}
    {node : Rose Label} : Value compact l text ls node after → node.Every TaggedRoot
  | .deeper _ _ _ read => read.tagged
  | .compact _ _ _ read => read.tagged
  | .null _ => tagged_word [] _ _
  | .scalar _ _ => tagged_text _ _ _
  | .inline read => read.tagged

end

end Document.Grammar

theorem read_tagged {text : List Char} {node : Rose Label} (h : Document.read text = .ok node) :
    node.Every TaggedRoot := by
  rcases read_sound h with ⟨-, rfl⟩ | ⟨last, hblock⟩
  · exact tagged_word [] 1 1
  · exact hblock.tagged

/-- Each node of a document is tagged as its form or its text has it. -/
theorem parse_tagged {text : String} {t : Tree} (h : parse text = .ok t) (r : Tree.Ref t) :
    r.label.Tagged := by
  obtain ⟨node, hread, rfl⟩ := exists_read_of_parse h
  have htop := (Tree.every_view (read_tagged hread) r).self
  rwa [TaggedRoot, r.map_view] at htop

end YamlDecode
