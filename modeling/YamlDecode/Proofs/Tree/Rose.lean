/-
Labelled trees as a whole: with other labels, as a list, and node by node.

The listing puts a node before its children and these in order, which is the order in which
a document is read.  `Every` says of a property of trees that it holds at every node, of the
tree that hangs there; what a node promises about its children is such a property.
-/
import YamlDecode.Tree.Rose

namespace YamlDecode.Rose

variable {α β : Type}

/-! ### Other labels -/

mutual

/-- The tree with other labels. -/
def map (f : α → β) : Rose α → Rose β
  | .node l cs => .node (f l) (mapAll f cs)

def mapAll (f : α → β) : List (Rose α) → List (Rose β)
  | [] => []
  | r :: rs => r.map f :: mapAll f rs

end

@[simp] theorem label_map (f : α → β) (r : Rose α) : (r.map f).label = f r.label := by
  cases r
  rfl

theorem mapAll_eq (f : α → β) (rs : List (Rose α)) : mapAll f rs = rs.map (map f) := by
  induction rs with
  | nil => rfl
  | cons r rs ih => rw [mapAll, ih, List.map_cons]

theorem children_map (f : α → β) (r : Rose α) : (r.map f).children = r.children.map (map f) := by
  cases r
  exact mapAll_eq f _

/-! ### The listing -/

mutual

/-- The number of nodes. -/
def size : Rose α → Nat
  | .node _ cs => sizes cs + 1

def sizes : List (Rose α) → Nat
  | [] => 0
  | r :: rs => r.size + sizes rs

end

theorem size_pos (r : Rose α) : 0 < r.size := by
  cases r
  exact Nat.succ_pos _

mutual

/-- The labels in reading order. -/
def preorder : Rose α → List α
  | .node l cs => l :: preorderAll cs

def preorderAll : List (Rose α) → List α
  | [] => []
  | r :: rs => r.preorder ++ preorderAll rs

end

mutual

/-- Other labels are listed in the same order. -/
theorem preorder_map (f : α → β) : ∀ r : Rose α, (r.map f).preorder = r.preorder.map f
  | .node l cs => by
      rw [map, preorder, preorder, preorderAll_map f cs, List.map_cons]

theorem preorderAll_map (f : α → β) :
    ∀ rs : List (Rose α), preorderAll (mapAll f rs) = (preorderAll rs).map f
  | [] => rfl
  | r :: rs => by
      rw [mapAll, preorderAll, preorderAll, preorder_map f r, preorderAll_map f rs,
        List.map_append]

end

theorem preorderAll_eq (rs : List (Rose α)) : preorderAll rs = rs.flatMap preorder := by
  induction rs with
  | nil => rfl
  | cons r rs ih => rw [preorderAll, ih, List.flatMap_cons]

theorem mem_preorderAll {x : α} {rs : List (Rose α)} :
    x ∈ preorderAll rs ↔ ∃ r ∈ rs, x ∈ r.preorder := by
  rw [preorderAll_eq, List.mem_flatMap]

/-! ### At every node -/

/-- The property holds of the tree and of all trees that hang in it. -/
inductive Every (P : Rose α → Prop) : Rose α → Prop
  | node {l : α} {cs : List (Rose α)} (self : P (.node l cs)) (below : ∀ c ∈ cs, Every P c) :
      Every P (.node l cs)

namespace Every

variable {P : Rose α → Prop} {r : Rose α}

theorem self (h : Every P r) : P r := by
  cases h
  assumption

theorem children (h : Every P r) : ∀ c ∈ r.children, Every P c := by
  cases h
  assumption

end Every

end YamlDecode.Rose
