/-
Reading the items of a collection, up to a limit.

All four kinds of collection are read the same way: one item after the other, until there
is no further one, and an item too many is an error at its line.  The limit is checked
behind the item, so what is wrong inside the last item comes first.  Counting the items
down is also what ends the loop.
-/
import YamlDecode.Document.Error
import YamlDecode.Tree.Rose
import YamlDecode.Tree.Basic

namespace YamlDecode.Document

/-- What one item adds to a collection, an entry of a mapping its key and its value, and the
line on which it starts. -/
structure Item where
  line : Nat
  nodes : List (Rose Label)

/-- Reads items by `next` while there are any, at most `room` of them.  `done` are the nodes
read so far, backwards; what is left to read comes back with the nodes. -/
def readItems {σ : Type} (c : Collection) (next : σ → Except ParseError (Option (Item × σ))) :
    Nat → List (Rose Label) → σ → Except ParseError (List (Rose Label) × σ)
  | room, done, s =>
    match next s with
    | .error e => .error e
    | .ok none => .ok (done.reverse, s)
    | .ok (some (item, rest)) =>
      match room with
      | 0 => .error ⟨item.line, .tooManyItems c⟩
      | room + 1 => readItems c next room (item.nodes.reverse ++ done) rest

/-- A node without children. -/
def leaf (tag : Tag) (value : List Char) (line column : Nat) : Rose Label :=
  .leaf ⟨tag, String.ofList value, line, column⟩

end YamlDecode.Document
