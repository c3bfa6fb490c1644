/-
Diagnostics: what remains of an error when its tree is gone.

An error of decoding points into a tree.  Its diagnostic holds the same facts as plain
data, with the path to the node written out and the message made.  A defect of a target
has no place in a document and no diagnostic.
-/
import YamlDecode.Decode.Error

namespace YamlDecode

/-- A text error as plain data. -/
structure Diagnostic where
  line : Nat
  column : Nat
  cause : Cause
  tag : Tag
  /-- The name of the target. -/
  target : String
  name : Option String
  /-- The path to the node; empty at the root. -/
  path : String
  message : String
  deriving DecidableEq, Repr

variable {t : Tree}

def TextError.diagnostic (e : TextError t) : Diagnostic where
  line := e.node.line
  column := e.node.column
  cause := e.cause
  tag := e.node.tag
  target := e.target.name
  name := e.name
  path := e.node.path.text
  message := e.message

def DecodeError.diagnostic? (e : DecodeError t) : Option Diagnostic :=
  e.text?.map TextError.diagnostic

/-- The diagnostics of those errors that have one, in order. -/
def diagnostics (errors : List (DecodeError t)) : List Diagnostic :=
  errors.filterMap DecodeError.diagnostic?

end YamlDecode
