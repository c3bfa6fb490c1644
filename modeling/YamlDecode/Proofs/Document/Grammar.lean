/-
What stands in a document, as rules.

Readers say how a document is gone through, with limits and in an order of attempts.  Here
is what they find: each rule says which text or which lines are read as which nodes, and
which lines are left behind them.  `Proofs/Document/Soundness.lean` shows that all that is
read is read by these rules.  What is then true of the nodes of a document, of their tags,
their positions, their order, is shown by induction on the rules, one case for each way in
which a node comes about.

There are two groups of rules, for values on one line and for blocks of lines.  A group of
rules is needed for each list of nodes, since items stand behind one another.
-/
import YamlDecode.Document.Block
import YamlDecode.Proofs.Document.Line

namespace YamlDecode.Document.Grammar

open YamlDecode.Text

/-! ### Values on one line -/

/-- The column at which the content of a piece starts, in a collection at a column. -/
def startOf (column : Nat) (p : Scanner.Piece) : Nat :=
  column + 1 + p.offset + blankWidth p.text

/-- The parts of a flow collection that hold more than blanks. -/
def contentPieces (inner : List Char) : List Scanner.Piece :=
  (flowPieces inner).filter fun p => !allBlank p.text

mutual

/-- A text that starts at a column of a line, or behind blanks there, is read as a node. -/
inductive Inline (line : Nat) : Nat → List Char → Rose Label → Prop
  | quoted {column : Nat} {text value behind : List Char}
      (opens : Quoted.opens (trim text) = true)
      (read : Quoted.read (trim text) = .ok (value, behind)) :
      Inline line column text (leaf .str value line column)
  | word {column : Nat} {text word : List Char} (opens : Quoted.opens (trim text) = false)
      (content : stripComment (trim text) = word)
      (brackets : ∀ tail, word ≠ '{' :: tail ∧ word ≠ '[' :: tail) :
      Inline line column text (leaf (Tag.ofPlain word) word line column)
  | mapping {column : Nat} {text inner : List Char} {nodes : List (Rose Label)}
      (opens : Quoted.opens (trim text) = false)
      (content : stripComment (trim text) = '{' :: (inner ++ ['}']))
      (entries : FlowEntries line column (contentPieces inner) nodes)
      (count : nodes.length ≤ 2 * maxItems) :
      Inline line column text (.node ⟨.map, "", line, column⟩ nodes)
  | sequence {column : Nat} {text inner : List Char} {nodes : List (Rose Label)}
      (opens : Quoted.opens (trim text) = false)
      (content : stripComment (trim text) = '[' :: (inner ++ [']']))
      (items : FlowItems line column (contentPieces inner) nodes)
      (count : nodes.length ≤ maxItems) :
      Inline line column text (.node ⟨.seq, "", line, column⟩ nodes)

/-- Pieces are read as the keys and the values of a flow mapping at a column. -/
inductive FlowEntries (line : Nat) : Nat → List Scanner.Piece → List (Rose Label) → Prop
  | nil {column : Nat} : FlowEntries line column [] []
  | cons {column : Nat} {p : Scanner.Piece} {ps : List Scanner.Piece} {before after : List Char}
      {key value : Rose Label} {nodes : List (Rose Label)}
      (colon : flowColon (trim p.text) = some (before, after))
      (readsKey : readKey line (startOf column p) before = .ok key)
      (readsValue :
        Inline line (startOf column p + width before + 1 + blankWidth after) after value)
      (rest : FlowEntries line column ps nodes) :
      FlowEntries line column (p :: ps) (key :: value :: nodes)

/-- Pieces are read as the items of a flow sequence at a column. -/
inductive FlowItems (line : Nat) : Nat → List Scanner.Piece → List (Rose Label) → Prop
  | nil {column : Nat} : FlowItems line column [] []
  | cons {column : Nat} {p : Scanner.Piece} {ps : List Scanner.Piece} {value : Rose Label}
      {nodes : List (Rose Label)}
      (readsValue : Inline line (startOf column p) (trim p.text) value)
      (rest : FlowItems line column ps nodes) :
      FlowItems line column (p :: ps) (value :: nodes)

end

/-! ### Blocks -/

/-- The text behind the dash of an item. -/
def behindDash (l : Line) : List Char := trimStart l.text.tail

mutual

/-- What starts on the next line with content is read as a node. -/
inductive Block : List Line → Rose Label → List Line → Prop
  | sequence {ls rest after : List Line} {l : Line} {node : Rose Label}
      (next : skipIgnorable ls = l :: rest) (read : Sequence (l :: rest) node after) :
      Block ls node after
  | mapping {ls rest after : List Line} {l : Line} {nodes : List (Rose Label)}
      (next : skipIgnorable ls = l :: rest) (colon : (blockColon l.text).isSome = true)
      (entries : Entries l.indent (l :: rest) nodes after) (count : nodes.length ≤ 2 * maxItems) :
      Block ls (.node ⟨.map, "", l.number, l.indent + 1⟩ nodes) after
  | inline {ls rest : List Line} {l : Line} {node : Rose Label}
      (next : skipIgnorable ls = l :: rest)
      (read : Inline l.number (l.indent + 1) l.text node) : Block ls node rest

/-- The sequence that starts on the first line. -/
inductive Sequence : List Line → Rose Label → List Line → Prop
  | items {rest after : List Line} {l : Line} {nodes : List (Rose Label)}
      (item : isItem l.text = true) (items : Items l.indent (l :: rest) nodes after)
      (count : nodes.length ≤ maxItems) :
      Sequence (l :: rest) (.node ⟨.seq, "", l.number, l.indent + 1⟩ nodes) after

/-- Lines are read as the keys and the values of a mapping at an indentation. -/
inductive Entries : Nat → List Line → List (Rose Label) → List Line → Prop
  | nil {indent : Nat} {ls : List Line} (stop : Next (·.indent < indent) ls) :
      Entries indent ls [] ls
  | cons {indent : Nat} {ls rest after last : List Line} {l : Line} {before behind : List Char}
      {key value : Rose Label} {nodes : List (Rose Label)}
      (next : skipIgnorable ls = l :: rest) (level : l.indent = indent)
      (colon : blockColon l.text = some (before, behind))
      (readsKey : readKey l.number (indent + 1) before = .ok key)
      (readsValue : Value true l (trimStart behind) rest value after)
      (more : Entries indent after nodes last) :
      Entries indent ls (key :: value :: nodes) last

/-- Lines are read as the items of a sequence at an indentation. -/
inductive Items : Nat → List Line → List (Rose Label) → List Line → Prop
  | nil {indent : Nat} {ls : List Line} (stop : Next (Line.EndsSequence indent) ls) :
      Items indent ls [] ls
  | block {indent : Nat} {ls rest after last : List Line} {l : Line} {value : Rose Label}
      {nodes : List (Rose Label)} (next : skipIgnorable ls = l :: rest)
      (level : l.indent = indent) (item : isItem l.text = true)
      (starts : startsBlock (behindDash l) = true)
      (readsValue : Block (l.passTo (behindDash l) :: rest) value after)
      (more : Items indent after nodes last) : Items indent ls (value :: nodes) last
  | value {indent : Nat} {ls rest after last : List Line} {l : Line} {value : Rose Label}
      {nodes : List (Rose Label)} (next : skipIgnorable ls = l :: rest)
      (level : l.indent = indent) (item : isItem l.text = true)
      (starts : startsBlock (behindDash l) = false)
      (readsValue : Value false l (behindDash l) rest value after)
      (more : Items indent after nodes last) : Items indent ls (value :: nodes) last

/-- The value behind a key or a dash on a line, from the text that ends that line and the lines
below.  Only a key may be followed by a sequence at its own indentation. -/
inductive Value : Bool → Line → List Char → List Line → Rose Label → List Line → Prop
  | deeper {compact : Bool} {l next : Line} {text : List Char} {ls rest after : List Line}
      {node : Rose Label} (empty : (stripComment text).isEmpty = true)
      (skip : skipIgnorable ls = next :: rest) (indented : l.indent < next.indent)
      (read : Block (next :: rest) node after) : Value compact l text ls node after
  | compact {l next : Line} {text : List Char} {ls rest after : List Line} {node : Rose Label}
      (empty : (stripComment text).isEmpty = true) (skip : skipIgnorable ls = next :: rest)
      (level : next.indent = l.indent) (read : Sequence (next :: rest) node after) :
      Value true l text ls node after
  | null {compact : Bool} {l : Line} {text : List Char} {ls : List Line}
      (empty : (stripComment text).isEmpty = true) :
      Value compact l text ls (leaf .null [] l.number (l.columnOf text)) ls
  | scalar {compact : Bool} {l : Line} {text value : List Char} {ls after : List Line}
      {header : Header} (readsHeader : Header.read text = .ok (some header))
      (read : header.readBlock l.indent ls = (value, after)) :
      Value compact l text ls (leaf .str value l.number (l.columnOf text)) after
  | inline {compact : Bool} {l : Line} {text : List Char} {ls : List Line} {node : Rose Label}
      (read : Inline l.number (l.columnOf text) text node) : Value compact l text ls node ls

end

end YamlDecode.Document.Grammar
