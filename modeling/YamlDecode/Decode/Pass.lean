/-
One pass over a tree, which fills a target or finds out why that cannot be done.

The pass goes down the tree in reading order and writes down every error it meets.  Where
it cannot fill something it goes on with null in its place, which nobody sees, since a
pass with errors has no value.  It stops for good at a defect of a target, and at any
error if the first is enough.

What is null in the document is null in the value, whatever the target, and nothing below
it is looked at.  A mapping with a repeated key is not decoded at all, and an entry is
left out if its key cannot be decoded.
-/
import YamlDecode.Decode.Error
import YamlDecode.Decode.Options
import YamlDecode.Decode.Repeats
import YamlDecode.Json
import YamlDecode.Tree.Graft

namespace YamlDecode

/-! ### Scalars -/

/-- What the text of a scalar is by its own tag; a number that cannot be read is a text. -/
def untyped (tag : Tag) (value : String) : Option Json :=
  let cs := value.toList
  match tag with
  | .null => some .null
  | .bool => some (.bool (isTrueWord cs))
  | .int => some (((readWord cs).map Json.int).getD (.str value))
  | .float => some (((Double.read cs).map Json.float).getD (.str value))
  | .str => some (.str value)
  | .seq | .map => none

/-- What the text of a scalar is in a shape, if it fits; shapes of collections hold none. -/
def scalarIn (shape : Shape) (tag : Tag) (value : String) : Option Json :=
  let cs := value.toList
  match shape with
  | .any => untyped tag value
  | .bool => if tag = .bool then some (.bool (isTrueWord cs)) else none
  | .int => if tag = .int then (readSigned cs).map Json.int else none
  | .uint => if tag = .int then (readUnsigned cs).map Json.int else none
  | .float => if tag = .int ∨ tag = .float then (Double.read cs).map Json.float else none
  | .string => if tag.isContainer then none else some (.str value)
  | .sequence _ | .map _ _ | .struct _ => none

/-! ### Passes -/

/-- A step of a pass: from the errors recorded before it to those recorded after it, with a
result unless the pass has stopped. -/
abbrev Pass (t : Tree) (α : Type) : Type := OptionT (StateM (Array (DecodeError t))) α

namespace Pass

variable {t : Tree} (options : Options)

/-- Writes an error down, and stops the pass where no further one is wanted. -/
def record (e : DecodeError t) : Pass t Unit := do
  modify (·.push e)
  if e.isDefect || options.policy = .firstError then failure

/-- How many errors have been written down. -/
def recorded (t : Tree) : Pass t Nat := do
  return (← get).size

/-- Writes down that a node does not fit. -/
def wrongType (r : Tree.Ref t) (target : Target) : Pass t Json := do
  record options (.wrongType (remark .wrongType r.label "" target none) r target)
  return .null

/-- Writes down the later keys of one text. -/
def recordLater (target : Target) (key : Tree.Ref t) : List (Tree.Ref t) → Pass t Unit
  | [] => pure ()
  | later :: rest => do
    let said := remark .keyAlreadyDefined later.label "" target (some key.line)
    record options (.alreadyDefined said later target "" key.line)
    recordLater target key rest

/-- Writes down repeated keys. -/
def recordRepeats (target : Target) : List (Tree.Ref t × List (Tree.Ref t)) → Pass t Unit
  | [] => pure ()
  | (key, later) :: rest => do
    recordLater options target key later
    recordRepeats target rest

/-- The keys among the nodes below a mapping. -/
def keys (below : List (Rose (Tree.Ref t))) : List (Tree.Ref t) :=
  (Tree.pairs below).map fun (key, _) => key.label

/-! ### Going down a tree

A pass tells of each node that it decodes, before it looks at anything else of it: `visit` is what
it does then.  Steps of a pass are steps of `m`, whatever else steps of `m` may do. -/

section Walk

variable {m : Type → Type} [Monad m] [MonadLiftT (Pass t) m] (visit : Tree.Ref t → m Unit)

/-- Goes on with a mapping unless a key is repeated. -/
def unlessRepeated (target : Target) (below : List (Rose (Tree.Ref t)))
    (go : m Json) : m Json :=
  match Tree.repeats (keys below) with
  | [] => go
  | found => do
    recordRepeats options target found
    return .null

mutual

/-- Decodes a node into a target. -/
def walk (target : Target) : Rose (Tree.Ref t) → m Json
  | .node r below => do
    visit r
    if r.tag = .null then pure .null
    else
      match target.shape with
      | .struct _ =>
        match target.layout with
        | .error d => do
          record options (.ofDefect d : DecodeError t)
          return .null
        | .ok layout =>
          if r.tag = .map then
            unlessRepeated options target below do
              let members ← walkFields target layout [] [] below
              return .obj members
          else wrongType options r target
      | .sequence element =>
        if r.tag = .seq then do
          let items ← walkItems element [] below
          return .arr items
        else wrongType options r target
      | .map key value =>
        if r.tag = .map then
          unlessRepeated options target below do
            let members ← walkEntries key value [] below
            return .obj members
        else wrongType options r target
      | .any =>
        if r.tag = .seq then do
          let items ← walkItems target [] below
          return .arr items
        else if r.tag = .map then
          unlessRepeated options target below do
            let members ← walkEntries target target [] below
            return .obj members
        else
          match scalarIn .any r.tag r.value with
          | some v => pure v
          | none => wrongType options r target
      | shape =>
        match scalarIn shape r.tag r.value with
        | some v => pure v
        | none => wrongType options r target

/-- Decodes the items of a sequence; `done` are the values before them, backwards. -/
def walkItems (element : Target) (done : List Json) :
    List (Rose (Tree.Ref t)) → m (List Json)
  | [] => pure done.reverse
  | item :: rest => do
    let v ← walk element item
    walkItems element (v :: done) rest

/-- Decodes the entries of a mapping.  The members are named by the texts of the keys. -/
def walkEntries (key value : Target) (done : List (String × Json)) :
    List (Rose (Tree.Ref t)) → m (List (String × Json))
  | k :: v :: rest => do
    let before ← recorded t
    let decodedKey ← walk key k
    if before < (← recorded t) then walkEntries key value done rest
    else
      let decoded ← walk value v
      let name := match decodedKey with
        | .str s => s
        | _ => k.label.value
      walkEntries key value ((name, decoded) :: done) rest
  | _ => pure done.reverse

/-- Decodes the entries of a mapping into the fields that their keys bind.  `bound` are the
fields bound already, with the lines of the keys that did it. -/
def walkFields (target : Target) (layout : Layout) (bound : List (Nat × Nat))
    (done : List (String × Json)) :
    List (Rose (Tree.Ref t)) → m (List (String × Json))
  | k :: v :: rest =>
    let key := k.label
    match layout.lookup key.value with
    | none => do
      if options.knownFields then
        let said := remark .unknownField key.label key.value target none
        record options (.unknownField said key target key.value)
      walkFields target layout bound done rest
    | some slot =>
      match bound.lookup slot.id with
      | some prior => do
        let said := remark .keyAlreadyDefined key.label key.value target (some prior)
        record options (.alreadyDefined said key target key.value prior)
        walkFields target layout bound done rest
      | none => do
        let decoded ← walk slot.target v
        walkFields target layout ((slot.id, key.line) :: bound) ((slot.key, decoded) :: done)
          rest
  | _ => pure done.reverse

end

end Walk

/-- Takes no notice of a node. -/
def silent (_ : Tree.Ref t) : Pass t Unit := pure ()

/-- Decodes a node into a target. -/
def assign (target : Target) (r : Rose (Tree.Ref t)) : Pass t Json :=
  walk options silent target r

/-- What a pass found: its errors, or else its value. -/
def result (p : Pass t Json) : Except (List (DecodeError t)) Json :=
  let (value, errors) := p.run.run #[]
  if errors.isEmpty then .ok (value.getD .null) else .error errors.toList

end Pass

end YamlDecode
