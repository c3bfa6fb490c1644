/-
Why a document cannot be read.

A fault is a reason, and an error is a fault at a line.  Texts of the document that a
message quotes are kept with the fault, and `Fault.message` is the only place where the
wording is written down.

The limits that faults speak of are here too, since a message names them.
-/
import YamlDecode.Text.Quoted

namespace YamlDecode.Document

open YamlDecode.Text

/-- The largest number of lines of a document. -/
def maxLines : Nat := 100000

/-- How deep collections may stand in each other. -/
def maxDepth : Nat := 64

/-- The largest number of items of one collection. -/
def maxItems : Nat := 50000

/-- The largest number of bytes of a value on one line. -/
def maxInlineWidth : Nat := 64 * 1024

/-- The four ways to write a collection. -/
inductive Collection where
  | blockMapping
  | blockSequence
  | flowMapping
  | flowSequence
  deriving DecidableEq, Repr

/-- A collection as messages name it. -/
def Collection.name : Collection → String
  | .blockMapping => "mapping"
  | .blockSequence => "sequence"
  | .flowMapping => "inline object"
  | .flowSequence => "inline array"

/-- The reasons why a document cannot be read. -/
inductive Fault where
  | tooManyLines
  /-- Content follows the root of the document. -/
  | contentAfterEnd
  | tooDeep
  /-- A collection has more than the largest number of items. -/
  | tooManyItems (c : Collection)
  /-- A value on one line is too long. -/
  | tooLong
  /-- A value was to be read where no line is left.  No reader asks for one there, so this stands
  for what would be a null on the last line of the document: no document has the fault, and its
  message is made up for the sake of the others. -/
  | missingContent
  /-- A value was to be read at an indentation that its line does not have. -/
  | unexpectedIndent (expected found : Nat)
  /-- A line of a block collection is indented deeper than the collection. -/
  | deeperIndent (c : Collection) (expected : Nat)
  /-- A sequence item stands among the entries of a mapping. -/
  | mixed
  | missingColon
  | emptyKey
  /-- A quoted text is not well formed. -/
  | quoted (text : List Char) (fault : Quoted.Fault)
  | contentAfterKey (rest : List Char)
  | contentAfterScalar (rest : List Char)
  | missingBraces (text : List Char)
  | missingBrackets (text : List Char)
  /-- An entry of a flow mapping has no colon. -/
  | missingFlowColon (entry : List Char)
  /-- A block scalar's header holds something that means nothing there. -/
  | blockHeader (text : List Char)
  deriving DecidableEq, Repr

/-- A text of the document between single quotes. -/
private def cite (text : List Char) : String := "'" ++ String.ofList text ++ "'"

/-- What is wrong with a quoted text. -/
def quotedMessage (text : List Char) : Quoted.Fault → String
  | .missingQuote => "invalid quoted string " ++ cite text ++ ": missing quote"
  | .unterminated => "unterminated quoted string " ++ cite text ++ ": missing closing quote"
  | .unknownEscape c =>
    "found unknown escape character " ++ cite [c] ++ " while parsing a quoted scalar"
  | .invalidEscape letter digits =>
    "invalid escape code " ++ cite ('\\' :: letter :: digits) ++ " while parsing a quoted scalar"

/-- A fault in words. -/
def Fault.message : Fault → String
  | .tooManyLines => "document exceeds max supported line count (" ++ toString maxLines ++ ")"
  | .contentAfterEnd => "did not find expected <document end>"
  | .tooDeep => "maximum nesting depth exceeded (" ++ toString maxDepth ++ ")"
  | .tooManyItems c => c.name ++ " exceeds max item count (" ++ toString maxItems ++ ")"
  | .tooLong => "inline value exceeds max length (" ++ toString maxInlineWidth ++ ")"
  | .missingContent => "did not find expected content"
  | .unexpectedIndent expected found =>
    "unexpected indentation: expected " ++ toString expected ++ ", found " ++ toString found
  | .deeperIndent c expected =>
    "unexpected indentation in " ++ c.name ++ ": expected " ++ toString expected
  | .mixed => "mixed sequence/mapping"
  | .missingColon => "could not find expected ':'"
  | .emptyKey => "empty mapping key"
  | .quoted text fault => quotedMessage text fault
  | .contentAfterKey rest => "unexpected content after quoted key " ++ cite rest
  | .contentAfterScalar rest => "unexpected content after quoted scalar " ++ cite rest
  | .missingBraces text => "invalid inline object syntax " ++ cite text ++ ": missing braces"
  | .missingBrackets text => "invalid inline array syntax " ++ cite text ++ ": missing brackets"
  | .missingFlowColon entry =>
    "invalid inline object entry " ++ cite entry ++ ": expected ':'"
  | .blockHeader text => "invalid block scalar header " ++ cite text

end YamlDecode.Document

namespace YamlDecode

/-- A fault at a line of the document; lines are counted from 1. -/
structure ParseError where
  line : Nat
  fault : Document.Fault
  deriving DecidableEq, Repr

namespace ParseError

/-- The error in one line. -/
def message (e : ParseError) : String :=
  "yaml: line " ++ toString e.line ++ ": " ++ e.fault.message

end ParseError

/-- The outcome of something that knows no lines, at a line. -/
def Document.atLine {α : Type} (line : Nat) : Except Document.Fault α → Except ParseError α
  | .ok a => .ok a
  | .error fault => .error ⟨line, fault⟩

end YamlDecode
