/-
Paths from the root to a node.

Under a mapping a step names a key, under a sequence it counts from 0.  A key and its
value share a step, since what goes wrong at either is wrong at that entry.  A node of a
tree built by hand may stand under a scalar; that step leaves no mark.

A path is found by walking up, and ends because parents come earlier.
-/
import YamlDecode.Tree.Basic

namespace YamlDecode

/-- One step of a path. -/
inductive Segment where
  | key (text : String)
  | index (i : Nat)
  deriving DecidableEq, Repr

/-- The steps from the root to a node. -/
abbrev Path := List Segment

/-- A step as a path shows it. -/
def Segment.text : Segment → String
  | .key k => k
  | .index i => "[" ++ toString i ++ "]"

/-- A step behind another one: a dot sets off a key. -/
def Segment.joined : Segment → String
  | .key k => "." ++ k
  | s => s.text

/-- The path in one line, as in `servers[0].host`. -/
def Path.text : Path → String
  | [] => ""
  | s :: rest => rest.foldl (fun line s => line ++ s.joined) s.text

namespace Tree.Ref

variable {t : Tree}

/-- The step from a parent to its child at a place. -/
def stepTo (p : Ref t) (slot : Nat) : Path :=
  match p.tag with
  | .map => (p.child? (slot - slot % 2)).toList.map fun key => .key key.value
  | .seq => [.index slot]
  | _ => []

/-- The steps from the root down to the node. -/
def path (r : Ref t) : Path :=
  match _h : r.parent? with
  | none => []
  | some p => p.path ++ p.stepTo r.slot
termination_by r.id
decreasing_by exact parent?_lt (by assumption)

end Tree.Ref

end YamlDecode
