/-
A node described in one line, for looking at trees while something is being made.

The description gives the node's number, tag, text, line and column.  Its text stands in
double quotes, with the characters that would break the line or the quotes escaped.
-/
import YamlDecode.Tree.Basic
import YamlDecode.Text.Blank

namespace YamlDecode.Tree

/-- The hexadecimal digits of a number, without leading zeros. -/
private def hexadecimal (n : Nat) : String := String.ofList (Nat.toDigits 16 n)

/-- A character as a description shows it. -/
def describeChar (c : Char) : String :=
  if c = '"' then "\\\""
  else if c = '\\' then "\\\\"
  else if c = '\t' then "\\t"
  else if c = '\n' then "\\n"
  else if c = '\r' then "\\r"
  else if c = '\x00' then "\\0"
  else if Text.isControl c then "\\u\x7b" ++ hexadecimal c.toNat ++ "\x7d"
  else String.singleton c

/-- A text as a description shows it. -/
def describeText (s : String) : String :=
  "\"" ++ String.join (s.toList.map describeChar) ++ "\""

/-- The node in one line. -/
def Ref.describe {t : Tree} (r : Ref t) : String :=
  "NodeRef \x7b id: NodeId(" ++ toString r.id ++ "), tag: " ++ r.tag.name.capitalize
    ++ ", value: " ++ describeText r.value ++ ", line: " ++ toString r.line
    ++ ", column: " ++ toString r.column ++ " \x7d"

/-- A node of one of several trees: the number of the tree, and its own. -/
structure Handle where
  tree : Nat
  node : Nat
  deriving DecidableEq, Repr

/-- The node as one of the tree with a number.  Nodes of trees with different numbers differ,
also where one tree is a copy of the other. -/
def Ref.handle {t : Tree} (tree : Nat) (r : Ref t) : Handle := ⟨tree, r.id⟩

end YamlDecode.Tree
