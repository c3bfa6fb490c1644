/-
Target types: what a caller wants a document to be decoded into.

A target is a shape and the name that messages call it by.  The constructors derive the
name from the parts, `[]string` or `map[string]int`; a target read from elsewhere may be
called anything, since nothing but messages looks at names.

A struct has fields, each bound by its key or by one of its aliases.  A field may be
inlined: its own fields then stand in the struct directly, and its key only serves to
name it when that cannot be done.
-/
import YamlDecode.Tag

namespace YamlDecode

mutual

/-- What a document is to be decoded into, and its name in messages. -/
structure Target where
  name : String
  shape : Shape

/-- What a target accepts. -/
inductive Shape where
  /-- Any node at all. -/
  | any
  | bool
  | int
  | uint
  | float
  | string
  | sequence (element : Target)
  | map (key value : Target)
  | struct (fields : List Field)

/-- A field of a struct. -/
structure Field where
  /-- The key that binds the field in a document, and names it in what comes out. -/
  key : String
  target : Target
  /-- Further keys that bind the field. -/
  aliases : List String
  inlined : Bool

end

namespace Target

def any : Target := ⟨"interface \x7b\x7d", .any⟩

def bool : Target := ⟨"bool", .bool⟩

def int : Target := ⟨"int", .int⟩

def uint : Target := ⟨"uint", .uint⟩

def float : Target := ⟨"float64", .float⟩

def string : Target := ⟨"string", .string⟩

def sequence (element : Target) : Target := ⟨"[]" ++ element.name, .sequence element⟩

def map (key value : Target) : Target :=
  ⟨"map[" ++ key.name ++ "]" ++ value.name, .map key value⟩

def struct (name : String) (fields : List Field) : Target := ⟨name, .struct fields⟩

/-- The kind of node that fills the target. -/
def expectedKind (t : Target) : Kind :=
  match t.shape with
  | .sequence _ => .sequence
  | .map _ _ | .struct _ => .mapping
  | _ => .scalar

/-- What to write in a document to fill the target, in a word. -/
def hint (t : Target) : String :=
  match t.shape with
  | .struct _ | .map _ _ => "key:value"
  | .sequence _ => "[]value"
  | .int => "int"
  | .uint => "uint"
  | .float => "float"
  | .string => "string"
  | .bool => "bool"
  | .any => "any"

end Target

instance : Inhabited Target := ⟨Target.any⟩

end YamlDecode
