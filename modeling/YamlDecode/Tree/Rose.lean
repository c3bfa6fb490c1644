/-
Labelled trees.

A document as the reader builds it and as the decoder walks it: a label and the trees
below it, in order.  The same shape carries what a node says, when the document is read,
and which node it is, when it is decoded, so everything that follows the structure of a
document is one recursion over this type and the lists of it.
-/
namespace YamlDecode

/-- A tree with a label at each node. -/
inductive Rose (α : Type) where
  | node (label : α) (children : List (Rose α))
  deriving Repr

namespace Rose

variable {α : Type}

def label : Rose α → α
  | .node l _ => l

def children : Rose α → List (Rose α)
  | .node _ cs => cs

/-- A tree of a single node. -/
def leaf (l : α) : Rose α := .node l []

@[simp] theorem label_node (l : α) (cs : List (Rose α)) : (node l cs).label = l := rfl

@[simp] theorem children_node (l : α) (cs : List (Rose α)) : (node l cs).children = cs := rfl

end Rose

end YamlDecode
