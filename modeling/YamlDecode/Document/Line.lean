/-
Lines of a document, as far as they have been read.

A sequence item may hold a collection that starts on the item's own line, behind the
dash.  The rest of the line is then read once more as a line of its own whose front part
is out of sight but still counts as indentation.  So a line is its number, the bytes
already passed, and the text that follows them.

Blank lines and lines that hold only a comment say nothing and are skipped, but the rest
of a line behind a dash is content whatever it holds.
-/
import YamlDecode.Text.Lines
import YamlDecode.Text.Blank

namespace YamlDecode.Document

open YamlDecode.Text

/-- A line whose first `offset` bytes have been passed. -/
structure Line where
  number : Nat
  offset : Nat
  rest : List Char
  deriving DecidableEq, Repr

namespace Line

/-- The bytes passed and the spaces that follow them. -/
def indent (l : Line) : Nat := l.offset + (l.rest.takeWhile (· == ' ')).length

/-- The rest of the line from its first character that is no space. -/
def text (l : Line) : List Char := l.rest.dropWhile (· == ' ')

/-- The column of a text that ends the line. -/
def columnOf (l : Line) (tail : List Char) : Nat := l.offset + width l.rest - width tail + 1

/-- A line without content: nothing, blanks, or a comment. -/
def ignorable (l : Line) : Bool :=
  l.offset == 0 && match trim l.rest with
    | [] => true
    | c :: _ => c == '#'

/-- The line with everything before `tail` passed. -/
def passTo (l : Line) (tail : List Char) : Line :=
  ⟨l.number, l.offset + width l.rest - width tail, tail⟩

end Line

/-- The lines from the next one that has content. -/
def skipIgnorable (ls : List Line) : List Line := ls.dropWhile Line.ignorable

/-- The lines of a text, numbered from 1. -/
def linesOf (text : List Char) : List Line :=
  (lines text).zipIdx.map fun (rest, i) => ⟨i + 1, 0, rest⟩

/-- Does the text start a sequence item?  A dash alone does, and one before a space. -/
def isItem : List Char → Bool
  | ['-'] => true
  | '-' :: ' ' :: _ => true
  | _ => false

/-! ### What skipping leaves -/

theorem not_ignorable_of_skip {ls rest : List Line} {l : Line}
    (h : skipIgnorable ls = l :: rest) : l.ignorable = false := by
  have := List.head?_dropWhile_not Line.ignorable ls
  rw [skipIgnorable] at h
  rw [h] at this
  simpa using this

end YamlDecode.Document
