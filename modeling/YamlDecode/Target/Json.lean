/-
Target types as JSON.

A target is an object with its name and its shape, and a shape an object that names its
kind and holds its parts beside.  A field leaves out what is usual, no aliases and no
inlining, and what is left out is read as the usual.  Members that mean nothing are
ignored wherever they stand; a member that means something must be well formed.

Further spellings are read and never written.  A target and a field may be arrays of what
their members hold, in order, a field without the last of what it may leave out.  A shape
may be an array of its kind and its parts, in order.  And inside another shape a kind may
be given by its number in the list of kinds, which the outermost shape has to name.

Reading starts from a JSON value, of whatever depth.  How a value is come by is left open,
and so is how deep a text of JSON may nest for a reader of texts.
-/
import YamlDecode.Target.Basic
import YamlDecode.Json

namespace YamlDecode

/-! ### Kinds of shapes -/

/-- What tells stored shapes apart. -/
inductive ShapeKind where
  | any
  | bool
  | int
  | uint
  | float
  | string
  | sequence
  | map
  | struct
  deriving DecidableEq, Repr

namespace ShapeKind

/-- The kinds in the order in which they are numbered, from 0. -/
def all : List ShapeKind :=
  [.any, .bool, .int, .uint, .float, .string, .sequence, .map, .struct]

def name : ShapeKind → String
  | .any => "any"
  | .bool => "bool"
  | .int => "int"
  | .uint => "uint"
  | .float => "float"
  | .string => "string"
  | .sequence => "sequence"
  | .map => "map"
  | .struct => "struct"

/-- A stored shape of the kind, with its parts. -/
def toJson (k : ShapeKind) (parts : List (String × Json)) : Json :=
  .obj (("kind", .str k.name) :: parts)

/-- The kind of a name, and where numbers count the kind of a number. -/
def ofJson? (numbered : Bool) : Json → Option ShapeKind
  | .int n => if numbered && 0 ≤ n then all[n.toNat]? else none
  | v => Json.ofName? all name v

/-- The shape of a kind that has no parts. -/
def bare? : ShapeKind → Option Shape
  | .any => some .any
  | .bool => some .bool
  | .int => some .int
  | .uint => some .uint
  | .float => some .float
  | .string => some .string
  | .sequence | .map | .struct => none

end ShapeKind

/-! ### Writing -/

mutual

def Target.toJson : Target → Json
  | ⟨name, shape⟩ => .obj [("name", .str name), ("shape", shape.toJson)]

def Shape.toJson : Shape → Json
  | .any => ShapeKind.any.toJson []
  | .bool => ShapeKind.bool.toJson []
  | .int => ShapeKind.int.toJson []
  | .uint => ShapeKind.uint.toJson []
  | .float => ShapeKind.float.toJson []
  | .string => ShapeKind.string.toJson []
  | .sequence element => ShapeKind.sequence.toJson [("element", element.toJson)]
  | .map key value => ShapeKind.map.toJson [("key", key.toJson), ("value", value.toJson)]
  | .struct fields => ShapeKind.struct.toJson [("fields", .arr (Field.listToJson fields))]

def Field.toJson : Field → Json
  | ⟨key, target, aliases, inlined⟩ =>
    .obj ([("key", .str key), ("type", target.toJson)]
      ++ (if aliases.isEmpty then [] else [("aliases", .arr (aliases.map Json.str))])
      ++ if inlined then [("inline", .bool true)] else [])

def Field.listToJson : List Field → List Json
  | [] => []
  | f :: fields => f.toJson :: Field.listToJson fields

end

/-! ### Reading -/

/-- What a field may leave out, in order: its aliases, and whether it is inlined. -/
def Field.unusual? : List Json → Option (List String × Bool)
  | [] => some ([], false)
  | [aliases] => do
    let aliases ← Json.items? Json.str? aliases
    return (aliases, false)
  | [aliases, inlined] => do
    let aliases ← Json.items? Json.str? aliases
    let inlined ← inlined.bool?
    return (aliases, inlined)
  | _ => none

/-! Each function follows the JSON value down by one step, so that the recursion is on its
structure: from an object to the member of a name, and from there to what it holds.
`nested` says whether that is inside a shape, where kinds may be numbered. -/

mutual

def Target.read? (nested : Bool) : Json → Option Target
  | .obj members => do
    let name ← (Json.find "name" members).bind Json.str?
    let shape ← Shape.member? nested members
    return ⟨name, shape⟩
  | .arr [name, shape] => do
    let name ← name.str?
    let shape ← Shape.read? nested shape
    return ⟨name, shape⟩
  | _ => none

/-- The shape that the member `shape` holds. -/
def Shape.member? (nested : Bool) : List (String × Json) → Option Shape
  | [] => none
  | (key, value) :: rest =>
    if key = "shape" then Shape.read? nested value else Shape.member? nested rest

def Shape.read? (nested : Bool) : Json → Option Shape
  | .obj members => do
    let kind ← (Json.find "kind" members).bind (ShapeKind.ofJson? nested)
    match kind with
    | .sequence =>
      let element ← Target.member? true "element" members
      return .sequence element
    | .map =>
      let key ← Target.member? true "key" members
      let value ← Target.member? true "value" members
      return .map key value
    | .struct =>
      let fields ← Field.member? members
      return .struct fields
    | kind => kind.bare?
  | .arr (kind :: parts) => do
    let kind ← ShapeKind.ofJson? nested kind
    Shape.ofParts? kind parts
  | _ => none

/-- The shape of a kind with its parts, in order. -/
def Shape.ofParts? (kind : ShapeKind) : List Json → Option Shape
  | [] => kind.bare?
  | [part] =>
    match kind with
    | .sequence => (Target.read? true part).map .sequence
    | .struct => (Field.arrOfJson? part).map .struct
    | _ => none
  | [first, second] => do
    let key ← Target.read? true first
    let value ← Target.read? true second
    if kind = .map then return .map key value else none
  | _ => none

/-- The target that the member of a name holds. -/
def Target.member? (nested : Bool) (name : String) : List (String × Json) → Option Target
  | [] => none
  | (key, value) :: rest =>
    if key = name then Target.read? nested value else Target.member? nested name rest

/-- The fields that the member `fields` holds. -/
def Field.member? : List (String × Json) → Option (List Field)
  | [] => none
  | (key, value) :: rest => if key = "fields" then Field.arrOfJson? value else Field.member? rest

/-- The fields of a shape, from an array of them. -/
def Field.arrOfJson? : Json → Option (List Field)
  | .arr items => Field.listOfJson? items
  | _ => none

def Field.listOfJson? : List Json → Option (List Field)
  | [] => some []
  | item :: items => do
    let f ← Field.read? true item
    let fields ← Field.listOfJson? items
    return f :: fields

def Field.read? (nested : Bool) : Json → Option Field
  | .obj members => do
    let key ← (Json.find "key" members).bind Json.str?
    let target ← Target.member? nested "type" members
    let aliases ← Json.getD? members "aliases" [] (Json.items? Json.str?)
    let inlined ← Json.getD? members "inline" false Json.bool?
    return ⟨key, target, aliases, inlined⟩
  | .arr (key :: target :: rest) => do
    let key ← key.str?
    let target ← Target.read? nested target
    let (aliases, inlined) ← Field.unusual? rest
    return ⟨key, target, aliases, inlined⟩
  | _ => none

end

def Target.ofJson? : Json → Option Target := Target.read? false

def Shape.ofJson? : Json → Option Shape := Shape.read? false

def Field.ofJson? : Json → Option Field := Field.read? false

end YamlDecode
