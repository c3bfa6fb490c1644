/-
Values that stand on one line.

A value is a quoted text, a flow collection or a plain word.  A quoted text must end the
value, but for a comment.  A flow collection is cut into pieces at its own commas, and
each piece is a value again, one level deeper; pieces of blanks only are passed over, so
a comma at the end does no harm.

Columns are carried along from the column at which the value was found: a piece starts
one byte behind the opening bracket, its offset further, and its blanks further still.
-/
import YamlDecode.Document.Items
import YamlDecode.Text.Scan

namespace YamlDecode.Document

open YamlDecode.Text

/-- The key that a text stands for.  Nothing may follow a quoted key. -/
def readKey (line column : Nat) (text : List Char) : Except ParseError (Rose Label) :=
  let key := trim text
  if key.isEmpty then .error ⟨line, .emptyKey⟩
  else if Quoted.opens key then
    match Quoted.read key with
    | .error fault => .error ⟨line, .quoted key fault⟩
    | .ok (value, rest) =>
      if allBlank rest then .ok (leaf .str value line column)
      else .error ⟨line, .contentAfterKey (trim rest)⟩
  else .ok (leaf (Tag.ofPlain key) key line column)

/-- What stands between an opening bracket, which has been read, and the closing one at the
end of the text. -/
def beforeLast (closing : Char) (text : List Char) : Option (List Char) :=
  if text.getLast? = some closing then some text.dropLast else none

/-- The first piece that holds more than blanks, and the pieces behind it. -/
def nextPiece (ps : List Scanner.Piece) : Option (Scanner.Piece × List Scanner.Piece) :=
  match ps.dropWhile fun p => allBlank p.text with
  | [] => none
  | p :: rest => some (p, rest)

/-- An entry of a flow mapping: a key, a colon and a value. -/
def flowEntry (value : Nat → List Char → Except ParseError (Rose Label)) (line column : Nat)
    (p : Scanner.Piece) : Except ParseError Item :=
  let text := trim p.text
  let start := column + 1 + p.offset + blankWidth p.text
  match flowColon text with
  | none => .error ⟨line, .missingFlowColon text⟩
  | some (before, after) => do
    let key ← readKey line start before
    let node ← value (start + width before + 1 + blankWidth after) after
    return ⟨line, [key, node]⟩

/-- An item of a flow sequence. -/
def flowItem (value : Nat → List Char → Except ParseError (Rose Label)) (line column : Nat)
    (p : Scanner.Piece) : Except ParseError Item := do
  let node ← value (column + 1 + p.offset + blankWidth p.text) (trim p.text)
  return ⟨line, [node]⟩

/-- The items of a flow collection, from what stands between its brackets. -/
def flowItems (c : Collection) (item : Scanner.Piece → Except ParseError Item)
    (inner : List Char) : Except ParseError (List (Rose Label)) :=
  let next (ps : List Scanner.Piece) : Except ParseError (Option (Item × List Scanner.Piece)) :=
    match nextPiece ps with
    | none => .ok none
    | some (p, rest) => (item p).map fun i => some (i, rest)
  (readItems c next maxItems [] (flowPieces inner)).map (·.1)

/-- A flow collection or a plain word; `value` reads what stands one level deeper. -/
def readUnquoted (value : Nat → List Char → Except ParseError (Rose Label)) (line column : Nat)
    (text : List Char) : Except ParseError (Rose Label) :=
  match text with
  | '{' :: tail =>
    match beforeLast '}' tail with
    | none => .error ⟨line, .missingBraces text⟩
    | some inner => do
      let nodes ← flowItems .flowMapping (flowEntry value line column) inner
      return .node ⟨.map, "", line, column⟩ nodes
  | '[' :: tail =>
    match beforeLast ']' tail with
    | none => .error ⟨line, .missingBrackets text⟩
    | some inner => do
      let nodes ← flowItems .flowSequence (flowItem value line column) inner
      return .node ⟨.seq, "", line, column⟩ nodes
  | _ => .ok (leaf (Tag.ofPlain text) text line column)

/-- The value that a text stands for; `room` is how many levels deep it may go. -/
def readInline (room : Nat) (line column : Nat) (text : List Char) :
    Except ParseError (Rose Label) :=
  match room with
  | 0 => .error ⟨line, .tooDeep⟩
  | room + 1 =>
    if maxInlineWidth < width text then .error ⟨line, .tooLong⟩
    else
      let content := trim text
      if Quoted.opens content then
        match Quoted.read content with
        | .error fault => .error ⟨line, .quoted content fault⟩
        | .ok (value, rest) =>
          if (stripComment (trim rest)).isEmpty then .ok (leaf .str value line column)
          else .error ⟨line, .contentAfterScalar (trim rest)⟩
      else readUnquoted (readInline room line) line column (stripComment content)

end YamlDecode.Document
