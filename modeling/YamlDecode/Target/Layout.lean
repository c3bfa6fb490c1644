/-
The layout of a struct: which key of a document binds which field.

The fields of a struct are counted off from 0, those of an inlined struct in the place
of the field that holds it, and each claims its key and then its aliases.  No key may be
claimed twice, and only a struct can be inlined; the first field in this order that
breaks a rule is the defect of the target.  A defect names the struct that was to be laid
out, also when it lies in a struct inlined there.
-/
import YamlDecode.Target.Basic

namespace YamlDecode

/-- What is wrong with the shape of a struct. -/
inductive Defect where
  /-- Two claims are laid to one key, by keys or aliases of one field or of two. -/
  | duplicatedKey (key typeName : String)
  /-- A field that is no struct is to be inlined. -/
  | inlineNotStruct (field typeName : String)
  deriving DecidableEq, Repr

namespace Defect

/-- The defect in words. -/
def message : Defect → String
  | .duplicatedKey key typeName => "duplicated key '" ++ key ++ "' in struct " ++ typeName
  | .inlineNotStruct field typeName =>
    "option inline needs a struct value field: " ++ field ++ " in struct " ++ typeName

end Defect

/-- A field as a key finds it. -/
structure Slot where
  /-- The number of the field, which it has to itself. -/
  id : Nat
  /-- The key under which the field's value comes out. -/
  key : String
  target : Target

/-- The keys of a struct with the fields that they bind. -/
structure Layout where
  slots : List (String × Slot)
  /-- The number of fields, inlined ones counted one by one. -/
  fieldCount : Nat

namespace Layout

def empty : Layout := ⟨[], 0⟩

/-- The field that a key binds. -/
def lookup (l : Layout) (key : String) : Option Slot := l.slots.lookup key

/-- The layout where keys are claimed for a field, in order, in a struct of a name. -/
def claim (typeName : String) (slot : Slot) (l : Layout) : List String → Except Defect Layout
  | [] => .ok l
  | key :: keys =>
    match l.lookup key with
    | some _ => .error (.duplicatedKey key typeName)
    | none => claim typeName slot { l with slots := (key, slot) :: l.slots } keys

mutual

/-- The layout with further fields behind those it has. -/
def extend (typeName : String) (l : Layout) : List Field → Except Defect Layout
  | [] => .ok l
  | f :: fields =>
    match addField typeName l f with
    | .error d => .error d
    | .ok l => extend typeName l fields

/-- The layout with one more field, or with the fields inlined there. -/
def addField (typeName : String) (l : Layout) : Field → Except Defect Layout
  | ⟨key, target, aliases, inlined⟩ =>
    if inlined then inlineTarget typeName key l target
    else
      claim typeName ⟨l.fieldCount, key, target⟩ { l with fieldCount := l.fieldCount + 1 }
        (key :: aliases)

/-- The layout with the fields of a target, which is to be inlined for the field `key`. -/
def inlineTarget (typeName key : String) (l : Layout) : Target → Except Defect Layout
  | ⟨_, shape⟩ => inlineShape typeName key l shape

/-- The layout with the fields of a shape, which is to be inlined for the field `key`. -/
def inlineShape (typeName key : String) (l : Layout) : Shape → Except Defect Layout
  | .struct fields => extend typeName l fields
  | _ => .error (.inlineNotStruct key typeName)

end

end Layout

/-- The layout of a struct; other targets have no fields. -/
def Target.layout (t : Target) : Except Defect Layout :=
  match t.shape with
  | .struct fields => Layout.empty.extend t.name fields
  | _ => .ok Layout.empty

end YamlDecode
