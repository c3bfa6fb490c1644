/-
JSON values.

What a document decodes to, and what target types, options and diagnostics are stored
as.  Integers are kept exact and apart from other numbers, which are finite binary64
values: a fraction that happens to be whole is still no integer.

The order of an object's members carries no meaning.  They are kept as a list of pairs
all the same, which is how they come up, and look-ups take the first of a name.
-/
import YamlDecode.Number.Double

namespace YamlDecode

/-- A JSON value. -/
inductive Json where
  | null
  | bool (b : Bool)
  | int (n : Int)
  | float (d : Double)
  | str (s : String)
  | arr (items : List Json)
  | obj (members : List (String × Json))
  deriving Repr, Inhabited

namespace Json

/-- The member of a name, in a list of members. -/
def find (name : String) : List (String × Json) → Option Json
  | [] => none
  | (key, value) :: rest => if key = name then some value else find name rest

/-- The member of a name, in an object. -/
def get? (name : String) : Json → Option Json
  | .obj members => find name members
  | _ => none

def str? : Json → Option String
  | .str s => some s
  | _ => none

def bool? : Json → Option Bool
  | .bool b => some b
  | _ => none

/-- An integer that fits an unsigned word of 64 bits. -/
def word? : Json → Option Nat
  | .int n => if fitsUnsigned n then some n.toNat else none
  | _ => none

def arr? : Json → Option (List Json)
  | .arr items => some items
  | _ => none

/-- An array all of whose items can be read. -/
def items? {α : Type} (read : Json → Option α) : Json → Option (List α)
  | .arr items => items.mapM read
  | _ => none

/-- The members of an object.  Instead of the object there may be an array of what its members hold,
in the order of the names, and without the last ones. -/
def record? (names : List String) : Json → Option (List (String × Json))
  | .obj members => some members
  | .arr items => if items.length ≤ names.length then some (names.zip items) else none
  | _ => none

/-- A member that may be missing, and must be readable if it is there. -/
def getD? {α : Type} (members : List (String × Json)) (name : String) (default : α)
    (read : Json → Option α) : Option α :=
  match find name members with
  | none => some default
  | some value => read value

/-- The value of a finite set that has a name; the names are those of `all`. -/
def ofName? {α : Type} (all : List α) (name : α → String) : Json → Option α
  | .str s => all.find? fun a => name a = s
  | _ => none

/-- A word of a finite set: its name, or an object with one member of that name, which is null. -/
def ofWord? {α : Type} (all : List α) (name : α → String) : Json → Option α
  | .obj [(key, .null)] => ofName? all name (.str key)
  | v => ofName? all name v

end Json

end YamlDecode
