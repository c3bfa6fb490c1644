/-
Tags of nodes, and what a plain word is tagged.

A node is tagged once, when the document is read, and everything later goes by its tag
and its text.  Four families of words mean something other than themselves: the words
for null, the words for truth values, integers that fit a word of 64 bits, and decimals
that a finite binary64 number comes near.  Every other word is a text, so a number
too large for any of these is one too.
-/
import YamlDecode.Number.Double

namespace YamlDecode

/-- What a node is built as. -/
inductive Kind where
  | scalar
  | sequence
  | mapping
  deriving DecidableEq, Repr

/-- What the content of a node was found to be. -/
inductive Tag where
  | null
  | bool
  | int
  | float
  | str
  | seq
  | map
  deriving DecidableEq, Repr, Inhabited

def Kind.all : List Kind := [.scalar, .sequence, .mapping]

def Kind.name : Kind → String
  | .scalar => "scalar"
  | .sequence => "sequence"
  | .mapping => "mapping"

namespace Tag

def all : List Tag := [.null, .bool, .int, .float, .str, .seq, .map]

def name : Tag → String
  | .null => "null"
  | .bool => "bool"
  | .int => "int"
  | .float => "float"
  | .str => "str"
  | .seq => "seq"
  | .map => "map"

/-- The tag as messages show it. -/
def short (t : Tag) : String := "!!" ++ t.name

def kind : Tag → Kind
  | .seq => .sequence
  | .map => .mapping
  | _ => .scalar

/-- Sequences and mappings hold other nodes; the rest hold a text. -/
def isContainer (t : Tag) : Bool := t.kind != .scalar

end Tag

/-! ### Plain words -/

/-- The words for null. -/
def isNullWord (cs : List Char) : Bool :=
  cs == [] || cs == ['~'] || cs == ['n', 'u', 'l', 'l'] || cs == ['N', 'u', 'l', 'l']
    || cs == ['N', 'U', 'L', 'L']

/-- The words for true. -/
def isTrueWord (cs : List Char) : Bool :=
  cs == ['t', 'r', 'u', 'e'] || cs == ['T', 'r', 'u', 'e'] || cs == ['T', 'R', 'U', 'E']

/-- The words for false. -/
def isFalseWord (cs : List Char) : Bool :=
  cs == ['f', 'a', 'l', 's', 'e'] || cs == ['F', 'a', 'l', 's', 'e']
    || cs == ['F', 'A', 'L', 'S', 'E']

/-- The tag of a word that stands in a document without quotes. -/
def Tag.ofPlain (cs : List Char) : Tag :=
  if isNullWord cs then .null
  else if isTrueWord cs || isFalseWord cs then .bool
  else if (readWord cs).isSome then .int
  else if (Double.read cs).isSome then .float
  else .str

/-! ### Short cuts that proofs use -/

@[simp] theorem Tag.isContainer_seq : Tag.seq.isContainer = true := rfl

@[simp] theorem Tag.isContainer_map : Tag.map.isContainer = true := rfl

theorem Tag.isContainer_of_ne {t : Tag} (hseq : t ≠ .seq) (hmap : t ≠ .map) :
    t.isContainer = false := by
  cases t with
  | seq => exact absurd rfl hseq
  | map => exact absurd rfl hmap
  | null | bool | int | float | str => rfl

theorem Tag.ne_of_isContainer {t : Tag} (h : t.isContainer = false) : t ≠ .seq ∧ t ≠ .map := by
  constructor
  · rintro rfl
    cases h
  · rintro rfl
    cases h

/-- A plain word is never tagged as a collection. -/
theorem Tag.isContainer_ofPlain (cs : List Char) : (Tag.ofPlain cs).isContainer = false := by
  unfold Tag.ofPlain
  repeat' split
  all_goals rfl

end YamlDecode
