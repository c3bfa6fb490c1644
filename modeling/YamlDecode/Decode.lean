/-
Decoding.

A tree is decoded from its root.  An empty tree decodes to null, and so does a tree whose
root is null.  Decoding a document in one step reads it first; what is then reported does
not refer to the tree, which nobody has.
-/
import YamlDecode.Decode.Diagnostic
import YamlDecode.Decode.Pass
import YamlDecode.Document

namespace YamlDecode

/-- Decodes a tree into a target: its value, or the errors in the order in which they were
found. -/
def decode (options : Options) (t : Tree) (target : Target) :
    Except (List (DecodeError t)) Json :=
  match t.root? with
  | none => .ok .null
  | some root => (Pass.assign options target root.view).result

/-- Options that are kept from one document to the next. -/
structure Decoder where
  options : Options

namespace Decoder

def setKnownFields (d : Decoder) (enabled : Bool) : Decoder :=
  ⟨{ d.options with knownFields := enabled }⟩

def decode (d : Decoder) (t : Tree) (target : Target) : Except (List (DecodeError t)) Json :=
  YamlDecode.decode d.options t target

end Decoder

/-- What can go wrong between a document and its value. -/
inductive UnmarshalError where
  | parse (e : ParseError)
  | decode (report : String) (diagnostics : List Diagnostic)

def UnmarshalError.message : UnmarshalError → String
  | .parse e => e.message
  | .decode report _ => report

/-- Reads a document and decodes it into a target. -/
def unmarshal (options : Options) (text : String) (target : Target) :
    Except UnmarshalError Json :=
  match parse text with
  | .error e => .error (.parse e)
  | .ok t =>
    match decode options t target with
    | .error errors => .error (.decode (report errors) (diagnostics errors))
    | .ok v => .ok v

end YamlDecode
