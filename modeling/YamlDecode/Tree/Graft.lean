/-
From a labelled tree to a tree of numbered nodes, and back.

`ofRose` adds a node before its children and its children in order, so that node numbers
follow the reading order of the document.  `Ref.view` is the way back: the labelled tree
of the nodes below a node, each labelled with itself.  It is how a tree built in any
order is walked by recursion on its shape, and it ends because children come later.
-/
import YamlDecode.Tree.Basic
import YamlDecode.Tree.Rose

namespace YamlDecode.Tree

mutual

/-- The tree with a labelled tree added under a parent. -/
def graft (t : Tree) (parent : Option Nat) : Rose Label → Tree
  | .node l cs =>
    let id := t.size
    (t.push parent l).graftAll id cs

/-- The tree with labelled trees added under a parent, one after the other. -/
def graftAll (t : Tree) (parent : Nat) : List (Rose Label) → Tree
  | [] => t
  | r :: rs => (t.graft (some parent) r).graftAll parent rs

end

/-- The tree whose nodes are those of a labelled tree, in reading order. -/
def ofRose (r : Rose Label) : Tree := empty.graft none r

variable {t : Tree}

/-- The node with all that hangs below it. -/
def Ref.view (r : Ref t) : Rose (Ref t) :=
  .node r (r.children.attach.map fun c => c.1.view)
termination_by t.entries.size - r.id
decreasing_by
  have := Ref.lt_of_mem_children c.2
  have := c.1.inTree
  omega

theorem Ref.view_eq (r : Ref t) : r.view = .node r (r.children.map Ref.view) := by
  rw [Ref.view]
  simp

end YamlDecode.Tree
