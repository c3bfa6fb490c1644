/-
What can go wrong when a tree is decoded, and how it is said.

Either the document is wrong, and the error names the node, the target it was meant for
and the cause; or a target is defective, and no node is to blame.  An error keeps the
text that was current where it arose beside its cause.  Its message is made from the cause alone.

A key may clash in two ways, told apart by the name: with a name, two keys bind the same
field of a struct; without one, a mapping holds the same key twice, and the message also
says where it stood first.
-/
import YamlDecode.Target.Layout
import YamlDecode.Tree.Path
import YamlDecode.Text.Quoted

namespace YamlDecode

/-- The ways in which a node may not fit. -/
inductive Cause where
  /-- The document has a key that the struct has no field for. -/
  | unknownField
  /-- A key of a mapping, or a field of a struct, is bound twice. -/
  | keyAlreadyDefined
  /-- The node's tag or text does not fit the target. -/
  | wrongType
  deriving DecidableEq, Repr

namespace Cause

def all : List Cause := [.unknownField, .keyAlreadyDefined, .wrongType]

def name : Cause → String
  | .unknownField => "unknown_field"
  | .keyAlreadyDefined => "key_already_defined"
  | .wrongType => "wrong_type"

/-- The cause in words. -/
def label : Cause → String
  | .unknownField => "unknown field"
  | .keyAlreadyDefined => "key already defined"
  | .wrongType => "incorrect yaml node"

end Cause

/-! ### Texts of the document in messages -/

/-- The text in double quotes. -/
def quote (s : String) : String := String.ofList (Text.Quoted.write s.toList)

/-- The text of a scalar in backquotes behind a space, cut after seven characters if it has
more than ten; nothing for a collection. -/
def valueSnippet (tag : Tag) (value : String) : String :=
  if tag.isContainer then ""
  else if 10 < value.length then " `" ++ String.ofList (value.toList.take 7) ++ "...`"
  else " `" ++ value ++ "`"

/-- Under this name an error's details hold the line on which a key stood first. -/
def priorLine : String := "line_num"

/-- The message of a text error in one line. -/
def render (cause : Cause) (node : Label) (name : Option String) (target : Target)
    (details : List (String × String)) : String :=
  "line " ++ toString node.line ++ ": " ++
    match cause with
    | .unknownField => "field " ++ name.getD "" ++ " not found in type " ++ target.name
    | .keyAlreadyDefined =>
      match name with
      | some name => "field " ++ name ++ " already set in type " ++ target.name
      | none =>
        "mapping key " ++ quote node.value ++ " already defined at line "
          ++ (details.lookup priorLine).getD ""
    | .wrongType =>
      "cannot unmarshal " ++ node.tag.short ++ valueSnippet node.tag node.value ++ " into "
        ++ target.name

/-- An empty name counts as none. -/
def nonEmpty (name : String) : Option String := if name.isEmpty then none else some name

/-- What is said of a node where it is found not to fit; `prior` is the line of an earlier key
that it clashes with. -/
def remark (cause : Cause) (node : Label) (name : String) (target : Target)
    (prior : Option Nat) : String :=
  render cause node (nonEmpty name) target
    (prior.toList.map fun line => (priorLine, toString line))

/-! ### Errors -/

/-- A node of the tree `t` that does not fit. -/
structure TextError (t : Tree) where
  node : Tree.Ref t
  /-- The name of the field concerned, if there is one. -/
  name : Option String
  cause : Cause
  target : Target
  details : List (String × String)

namespace TextError

variable {t : Tree}

def message (e : TextError t) : String := render e.cause e.node.label e.name e.target e.details

end TextError

/-- An error of decoding the tree `t`. -/
structure DecodeError (t : Tree) where
  /-- What is wrong, with the document or with a target. -/
  cause : TextError t ⊕ Defect
  /-- What was said where the error arose. -/
  said : String

namespace DecodeError

variable {t : Tree}

def text? (e : DecodeError t) : Option (TextError t) := e.cause.getLeft?

/-- Is a target to blame, and not the document? -/
def isDefect (e : DecodeError t) : Bool := e.cause.isRight

/-- The error in one line. -/
def message (e : DecodeError t) : String :=
  match e.cause with
  | .inl e => e.message
  | .inr d => d.message

/-- A key has no field in a target. -/
def unknownField (said : String) (node : Tree.Ref t) (target : Target) (name : String) :
    DecodeError t :=
  ⟨.inl ⟨node, nonEmpty name, .unknownField, target, []⟩, said⟩

/-- A key is bound twice, for the first time on the line `prior`.  Without a name it is a key
of a mapping, with one a field. -/
def alreadyDefined (said : String) (node : Tree.Ref t) (target : Target) (name : String)
    (prior : Nat) : DecodeError t :=
  ⟨.inl ⟨node, nonEmpty name, .keyAlreadyDefined, target, [(priorLine, toString prior)]⟩, said⟩

/-- A node cannot be decoded into a target. -/
def wrongType (said : String) (node : Tree.Ref t) (target : Target) : DecodeError t :=
  ⟨.inl ⟨node, none, .wrongType, target, []⟩, said⟩

/-- A target is defective. -/
def ofDefect (d : Defect) : DecodeError t := ⟨.inr d, d.message⟩

end DecodeError

/-- All errors in one text, each on a line of its own. -/
def report {t : Tree} (errors : List (DecodeError t)) : String :=
  errors.foldl (fun out e => out ++ "\n  " ++ e.message) "yaml: unmarshal errors:"

end YamlDecode
