/-
A tree of nodes, kept in the order in which they were added.

Nodes are numbered as they come, from 0, and each records what it says, its parent, its
place among its parent's children, and its own children.  The first node is the root; a
tree built by hand may hold further nodes without a parent, and its tags and texts need
not agree.

Parents and children are both recorded, and a node can only be added under one that is
there already.  So links upward lead to smaller numbers and links downward to larger
ones, which is the invariant `Entry.Fits` and the reason why walks in either direction
end.  It is part of the type: `push` is the only way to build a tree, and keeps it.
-/
import YamlDecode.Tag

namespace YamlDecode

/-- What a node says, and where in the source it stands: line and byte column, both
counted from 1. -/
structure Label where
  tag : Tag
  value : String
  line : Nat
  column : Nat
  deriving DecidableEq, Repr

namespace Tree

/-- A node as a tree keeps it. -/
structure Entry where
  label : Label
  parent : Option Nat
  /-- The place among the parent's children, counted from 0. -/
  slot : Nat
  children : Array Nat

/-- Node `i` of a tree of `n` nodes links upward to a smaller number and downward to larger
ones. -/
structure Entry.Fits (e : Entry) (i n : Nat) : Prop where
  parent_lt : ∀ p, e.parent = some p → p < i
  lt_child : ∀ c, c ∈ e.children → i < c ∧ c < n

end Tree

/-- A tree of nodes in the order in which they were added. -/
structure Tree where
  entries : Array Tree.Entry
  fits : ∀ i (h : i < entries.size), entries[i].Fits i entries.size

namespace Tree

/-- The number of nodes. -/
def size (t : Tree) : Nat := t.entries.size

def empty : Tree := ⟨#[], fun i h => absurd h (Nat.not_lt_zero i)⟩

/-- The node with one more child. -/
def Entry.addChild (e : Entry) (c : Nat) : Entry := { e with children := e.children.push c }

private theorem fits_push_root (t : Tree) (l : Label) :
    ∀ i (h : i < (t.entries.push ⟨l, none, 0, #[]⟩).size),
      (t.entries.push ⟨l, none, 0, #[]⟩)[i].Fits i (t.entries.push ⟨l, none, 0, #[]⟩).size := by
  intro i h
  rw [Array.size_push] at h ⊢
  rw [Array.getElem_push]
  split
  · next hi =>
    exact ⟨(t.fits i hi).parent_lt, fun c hc =>
      ⟨((t.fits i hi).lt_child c hc).1, Nat.lt_succ_of_lt ((t.fits i hi).lt_child c hc).2⟩⟩
  · refine ⟨fun p hp => ?_, fun c hc => absurd hc (Array.not_mem_empty c)⟩
    cases hp

private theorem fits_push_child (t : Tree) (l : Label) (p s : Nat) (hp : p < t.entries.size) :
    ∀ i (h : i < ((t.entries.modify p (·.addChild t.entries.size)).push ⟨l, some p, s, #[]⟩).size),
      ((t.entries.modify p (·.addChild t.entries.size)).push ⟨l, some p, s, #[]⟩)[i].Fits i
        ((t.entries.modify p (·.addChild t.entries.size)).push ⟨l, some p, s, #[]⟩).size := by
  intro i h
  rw [Array.size_push, Array.size_modify] at h ⊢
  rw [Array.getElem_push]
  split
  · next hi =>
    rw [Array.size_modify] at hi
    have old := t.fits i hi
    rw [Array.getElem_modify]
    split
    · refine ⟨old.parent_lt, fun c hc => ?_⟩
      rcases Array.mem_push.1 hc with hc | rfl
      · exact ⟨(old.lt_child c hc).1, Nat.lt_succ_of_lt (old.lt_child c hc).2⟩
      · exact ⟨hi, Nat.lt_succ_self _⟩
    · exact ⟨old.parent_lt, fun c hc =>
        ⟨(old.lt_child c hc).1, Nat.lt_succ_of_lt (old.lt_child c hc).2⟩⟩
  · next hi =>
    rw [Array.size_modify] at hi
    have hi' : i = t.entries.size := by omega
    subst hi'
    refine ⟨fun q hq => ?_, fun c hc => absurd hc (Array.not_mem_empty c)⟩
    cases hq
    exact hp

/-- The tree with one more node, numbered by the size of the tree before.  A parent that is
not in the tree counts as none. -/
def push (t : Tree) (parent : Option Nat) (l : Label) : Tree :=
  match parent with
  | none => ⟨t.entries.push ⟨l, none, 0, #[]⟩, fits_push_root t l⟩
  | some p =>
    if hp : p < t.entries.size then
      let slot := t.entries[p].children.size
      ⟨(t.entries.modify p (·.addChild t.entries.size)).push ⟨l, some p, slot, #[]⟩,
        fits_push_child t l p slot hp⟩
    else ⟨t.entries.push ⟨l, none, 0, #[]⟩, fits_push_root t l⟩

@[simp] theorem size_empty : empty.size = 0 := rfl

@[simp] theorem size_push (t : Tree) (parent : Option Nat) (l : Label) :
    (t.push parent l).size = t.size + 1 := by
  unfold push
  split
  · simp [size]
  · split <;> simp [size]

/-! ### Nodes of a tree -/

/-- A node of the tree `t`. -/
structure Ref (t : Tree) where
  id : Nat
  inTree : id < t.entries.size
  deriving DecidableEq

/-- The node of a number, if there is one. -/
def node? (t : Tree) (id : Nat) : Option (Ref t) :=
  if h : id < t.entries.size then some ⟨id, h⟩ else none

/-- The first node, if there is one. -/
def root? (t : Tree) : Option (Ref t) := t.node? 0

/-- All nodes in order. -/
def nodes (t : Tree) : List (Ref t) :=
  (List.finRange t.entries.size).map fun i => ⟨i.1, i.2⟩

/-- The elements of a list in pairs; a last one without a partner is left out. -/
def pairs {α : Type} (xs : List α) : List (α × α) := go [] xs
where
  go (done : List (α × α)) : List α → List (α × α)
    | x :: y :: rest => go ((x, y) :: done) rest
    | _ => done.reverse

namespace Ref

variable {t : Tree}

def entry : Ref t → Entry
  | ⟨i, _⟩ => t.entries[i]

def label (r : Ref t) : Label := r.entry.label

def tag (r : Ref t) : Tag := r.label.tag

def kind (r : Ref t) : Kind := r.tag.kind

/-- The text of the node; that of a collection that was read from a document is empty. -/
def value (r : Ref t) : String := r.label.value

def line (r : Ref t) : Nat := r.label.line

def column (r : Ref t) : Nat := r.label.column

def slot (r : Ref t) : Nat := r.entry.slot

theorem fits (r : Ref t) : r.entry.Fits r.id t.entries.size := t.fits r.id r.inTree

def parent? (r : Ref t) : Option (Ref t) :=
  match h : r.entry.parent with
  | none => none
  | some p => some ⟨p, Nat.lt_trans (r.fits.parent_lt p h) r.inTree⟩

/-- Parents come earlier. -/
theorem parent?_lt {r p : Ref t} (h : r.parent? = some p) : p.id < r.id := by
  unfold parent? at h
  split at h
  · cases h
  · next q hq =>
    cases h
    exact r.fits.parent_lt q hq

def children (r : Ref t) : List (Ref t) :=
  r.entry.children.attach.toList.map fun c => ⟨c.1, (r.fits.lt_child c.1 c.2).2⟩

/-- Children come later. -/
theorem lt_of_mem_children {r c : Ref t} (h : c ∈ r.children) : r.id < c.id := by
  obtain ⟨⟨i, hi⟩, -, rfl⟩ := List.mem_map.1 h
  exact (r.fits.lt_child i hi).1

/-- The child at a place, counted from 0. -/
def child? (r : Ref t) (i : Nat) : Option (Ref t) :=
  if h : i < r.entry.children.size then
    some ⟨r.entry.children[i], (r.fits.lt_child _ (Array.getElem_mem h)).2⟩
  else none

/-- The keys of a mapping, each with its value; other nodes have none. -/
def entries (r : Ref t) : List (Ref t × Ref t) :=
  if r.tag = .map then pairs r.children else []

end Ref

end Tree

end YamlDecode
