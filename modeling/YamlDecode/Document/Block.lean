/-
Block collections, which are told apart by indentation.

A block is what starts on a line at some indentation: a sequence if the line starts with
a dash, a mapping if it holds a key and a colon, and a value on one line otherwise.  A
collection goes on as long as lines have its indentation; a line that is indented less
belongs to what stands around it, and one that is indented more belongs to nothing.

What a key or a dash is followed by is on the same line, or on deeper lines, or absent.
Two forms save indentation.  A sequence may stand at the indentation of its own key, and
a collection may start on the line of its dash, the rest of that line being read as a
line of its own.

Depth is limited, and that limit is what the recursion goes by: `readers room` reads
blocks that may go `room` levels deep, with the readers of one level less.  A sequence at
its key's indentation is the one collection whose own level is not checked, so readers
hold a reader of sequences beside the reader of blocks, also where no room is left.
-/
import YamlDecode.Document.Inline
import YamlDecode.Document.Line
import YamlDecode.Document.BlockScalar

namespace YamlDecode.Document

open YamlDecode.Text

/-- What was read, and the lines behind it. -/
abbrev ReadResult := Except ParseError (Rose Label × List Line)

/-- The readers for one level of nesting: of what starts at an indentation, and of a sequence
there. -/
structure Readers where
  block : Nat → List Line → ReadResult
  sequence : Nat → List Line → ReadResult
  /-- A value on one line, at a line and a column. -/
  inline : Nat → Nat → List Char → Except ParseError (Rose Label)

/-- The value behind a key or a dash on `line`, in a collection indented by `indent`; `text`
is what stands on that line.  Only a key may be followed by a sequence at its own
indentation. -/
def readValue (inner : Readers) (compact : Bool) (line indent column : Nat) (text : List Char)
    (ls : List Line) : ReadResult :=
  if (stripComment text).isEmpty then
    match skipIgnorable ls with
    | [] => .ok (leaf .null [] line column, ls)
    | next :: rest =>
      if indent < next.indent then inner.block next.indent (next :: rest)
      else if compact && next.indent == indent && isItem next.text then
        inner.sequence indent (next :: rest)
      else .ok (leaf .null [] line column, ls)
  else
    match Header.read text with
    | .error fault => .error ⟨line, fault⟩
    | .ok (some header) =>
      let (value, rest) := header.readBlock indent ls
      .ok (leaf .str value line column, rest)
    | .ok none => (inner.inline line column text).map fun node => (node, ls)

/-- The next entry of a mapping indented by `indent`. -/
def nextEntry (inner : Readers) (indent : Nat) (ls : List Line) :
    Except ParseError (Option (Item × List Line)) :=
  match skipIgnorable ls with
  | [] => .ok none
  | l :: rest =>
    if l.indent < indent then .ok none
    else if indent < l.indent then .error ⟨l.number, .deeperIndent .blockMapping indent⟩
    else if isItem l.text then .error ⟨l.number, .mixed⟩
    else
      match blockColon l.text with
      | none => .error ⟨l.number, .missingColon⟩
      | some (before, after) => do
        let key ← readKey l.number (indent + 1) before
        let text := trimStart after
        let (node, rest) ← readValue inner true l.number indent (l.columnOf text) text rest
        return some (⟨l.number, [key, node]⟩, rest)

/-- The mapping indented by `indent` that starts on the first line. -/
def readMapping (inner : Readers) (indent : Nat) (ls : List Line) : ReadResult := do
  let line := match ls with
    | [] => 1
    | l :: _ => l.number
  let (nodes, rest) ← readItems .blockMapping (nextEntry inner indent) maxItems [] ls
  return (.node ⟨.map, "", line, indent + 1⟩ nodes, rest)

/-- Does a text behind a dash start a collection of its own? -/
def startsBlock (text : List Char) : Bool :=
  !(stripComment text).isEmpty && (isItem text || (blockColon text).isSome)

/-- The next item of a sequence indented by `indent`. -/
def nextItem (inner : Readers) (indent : Nat) (ls : List Line) :
    Except ParseError (Option (Item × List Line)) :=
  match skipIgnorable ls with
  | [] => .ok none
  | l :: rest =>
    if l.indent < indent then .ok none
    else if indent < l.indent then .error ⟨l.number, .deeperIndent .blockSequence indent⟩
    else if !isItem l.text then .ok none
    else do
      let text := trimStart l.text.tail
      let (node, rest) ←
        if startsBlock text then
          let l := l.passTo text
          inner.block l.offset (l :: rest)
        else readValue inner false l.number indent (l.columnOf text) text rest
      return some (⟨l.number, [node]⟩, rest)

/-- The sequence indented by `indent` that starts on the first line. -/
def readSequence (inner : Readers) (indent : Nat) (ls : List Line) : ReadResult := do
  let line := match ls with
    | [] => 1
    | l :: _ => l.number
  let (nodes, rest) ← readItems .blockSequence (nextItem inner indent) maxItems [] ls
  return (.node ⟨.seq, "", line, indent + 1⟩ nodes, rest)

/-- What starts at the next line with content, which is to be indented by `indent`.

Where no line is left there would be a null on the last line of the document, which the lines left
do not tell.  No reader is asked for a block there, and the fault in its place would end the reading
if one were.  The reader by byte positions, in `Proofs/Bytes`, has the null. -/
def readBlock (inner : Readers) (indent : Nat) (ls : List Line) : ReadResult :=
  match skipIgnorable ls with
  | [] => .error ⟨1, .missingContent⟩
  | l :: rest =>
    if l.indent ≠ indent then .error ⟨l.number, .unexpectedIndent indent l.indent⟩
    else if isItem l.text then readSequence inner indent (l :: rest)
    else if (blockColon l.text).isSome then readMapping inner indent (l :: rest)
    else (inner.inline l.number (indent + 1) l.text).map fun node => (node, rest)

/-- Refuses the next line with content as too deep; as in `readBlock` there is one. -/
def refuseDeeper (ls : List Line) : ReadResult :=
  match skipIgnorable ls with
  | [] => .error ⟨1, .missingContent⟩
  | l :: _ => .error ⟨l.number, .tooDeep⟩

/-- Readers that go no deeper. -/
def noReaders : Readers where
  block _ ls := refuseDeeper ls
  sequence _ ls := refuseDeeper ls
  inline line column text := readInline 0 line column text

/-- Readers that may go `room` levels deep.  Their values on one line have that room too. -/
def readers : Nat → Readers
  | 0 =>
    { block := fun _ ls => refuseDeeper ls
      sequence := fun indent ls => readSequence noReaders indent ls
      inline := fun line column text => readInline 0 line column text }
  | room + 1 =>
    let inner := readers room
    { block := fun indent ls => readBlock inner indent ls
      sequence := fun indent ls => readSequence inner indent ls
      inline := fun line column text => readInline (room + 1) line column text }

/-- The root of a document: the block that starts at the first line with content, behind a
line `---` if that comes first.  Without content the root is null. -/
def readRoot (ls : List Line) : ReadResult :=
  let isMark (mark : List Char) (l : Line) := trim l.rest == mark
  let ls := match skipIgnorable ls with
    | [] => []
    | l :: rest => if isMark ['-', '-', '-'] l then rest else l :: rest
  match skipIgnorable ls with
  | [] => .ok (leaf .null [] 1 1, [])
  | l :: rest => do
    let (root, rest) ← (readers (maxDepth + 1)).block l.indent (l :: rest)
    match skipIgnorable rest with
    | [] => return (root, [])
    | l :: rest =>
      if isMark ['.', '.', '.'] l then return (root, rest)
      else throw ⟨l.number, .contentAfterEnd⟩

end YamlDecode.Document
