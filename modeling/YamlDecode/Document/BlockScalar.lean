/-
Block scalars.

A header `|` or `>` opens a text that takes up the following lines.  What indents those
lines is not part of the text: either as many spaces as the header says, on top of the
indentation around it, or as many as the first line with content has.  The text ends in
front of the first line with content that is indented less.  Blank lines belong to it
wherever they stand, and count as empty.

`|` keeps the line breaks; `>` folds them, so that a break between two lines becomes a
space, unless blank lines stand there, which become a break each.  At the end, `-` leaves
no line break, `+` leaves as many as there are, and otherwise one is left.
-/
import YamlDecode.Document.Line
import YamlDecode.Document.Error
import YamlDecode.Text.Scan

namespace YamlDecode.Document

open YamlDecode.Text

/-- What becomes of the line breaks at the end of a block scalar. -/
inductive Chomping where
  | clip
  | strip
  | keep
  deriving DecidableEq, Repr

/-- What stands on the line that opens a block scalar. -/
structure Header where
  folded : Bool
  chomping : Chomping
  /-- How many spaces more than what stands around it the text is indented by. -/
  indent : Option Nat
  deriving DecidableEq, Repr

namespace Header

/-- Reads the marks behind the style; the last of a kind counts, and a blank ends them. -/
def readMarks (text : List Char) (h : Header) : List Char → Except Fault Header
  | [] => .ok h
  | c :: cs =>
    if c = '+' then readMarks text { h with chomping := .keep } cs
    else if c = '-' then readMarks text { h with chomping := .strip } cs
    else if '1' ≤ c ∧ c ≤ '9' then
      readMarks text { h with indent := some (c.toNat - '0'.toNat) } cs
    else if isBlank c then .ok h
    else .error (.blockHeader text)

/-- The header that a value is, if it starts like one. -/
def read (text : List Char) : Except Fault (Option Header) :=
  match trim (stripComment text) with
  | '|' :: marks => (readMarks text ⟨false, .clip, none⟩ marks).map some
  | '>' :: marks => (readMarks text ⟨true, .clip, none⟩ marks).map some
  | _ => .ok none

end Header

/-- Takes the lines of a block scalar that stands in something indented by `parent`.
`indent` is what indents the text, once that is known, and `done` are the lines taken so
far, backwards and without what indents them; the lines that are left come second. -/
def takeBlock (parent : Nat) (indent : Option Nat) (done : List (List Char)) :
    List Line → List (List Char) × List Line
  | [] => (done, [])
  | l :: ls =>
    if allBlank l.text then takeBlock parent indent ([] :: done) ls
    else
      match indent with
      | none =>
        if l.indent ≤ parent then (done, l :: ls)
        else takeBlock parent (some l.indent) (l.rest.drop (l.indent - l.offset) :: done) ls
      | some n =>
        if l.indent < n then (done, l :: ls)
        else takeBlock parent (some n) (l.rest.drop (n - l.offset) :: done) ls

/-- What a line adds to a folded text, behind the line before it. -/
def foldJoint (before line : List Char) : List Char :=
  if line.isEmpty then ['\n'] else if before.isEmpty then line else ' ' :: line

/-- Lines folded into one text. -/
def foldLines : List (List Char) → List Char
  | [] => []
  | first :: rest => first ++ (List.zipWith foldJoint (first :: rest) rest).flatten

/-- Lines joined by line breaks. -/
def joinLines (ls : List (List Char)) : List Char := ['\n'].intercalate ls

/-- The text of a block scalar, from its lines backwards.  The blank lines at its end are
not part of the body; keeping them leaves a break for each and one for the body. -/
def Header.assemble (h : Header) (done : List (List Char)) : List Char :=
  let trailing := (done.takeWhile (·.isEmpty)).length
  let body := (done.dropWhile (·.isEmpty)).reverse
  let text := if h.folded then foldLines body else joinLines body
  match h.chomping with
  | .strip => text
  | .clip => if body.isEmpty then text else text ++ ['\n']
  | .keep => text ++ List.replicate (trailing + 1) '\n'

/-- The text of a block scalar, and the lines behind it. -/
def Header.readBlock (h : Header) (parent : Nat) (ls : List Line) : List Char × List Line :=
  let (done, rest) := takeBlock parent (h.indent.map (parent + ·)) [] ls
  (h.assemble done, rest)

end YamlDecode.Document
