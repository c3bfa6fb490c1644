/-
Options, diagnostics and their parts as JSON.

Words of a fixed set are stored as their names.  A step of a path is an object with one
member, which says whether it is a key or an index.  Options may leave out members, which
then have their usual values; of a diagnostic only the name may be missing, or null.
Members that mean nothing are ignored, but for those of a step.

Further spellings are read and never written.  A word may be an object whose one member is
null under its name.  Options and diagnostics may be arrays of what their members hold, in
order, without the last ones if these may be missing.
-/
import YamlDecode.Decode.Diagnostic
import YamlDecode.Decode.Options
import YamlDecode.Json

namespace YamlDecode

def Tag.toJson (t : Tag) : Json := .str t.name

def Tag.ofJson? : Json → Option Tag := Json.ofWord? Tag.all Tag.name

def Kind.toJson (k : Kind) : Json := .str k.name

def Kind.ofJson? : Json → Option Kind := Json.ofWord? Kind.all Kind.name

def Cause.toJson (c : Cause) : Json := .str c.name

def Cause.ofJson? : Json → Option Cause := Json.ofWord? Cause.all Cause.name

def ErrorPolicy.toJson (p : ErrorPolicy) : Json := .str p.name

def ErrorPolicy.ofJson? : Json → Option ErrorPolicy :=
  Json.ofWord? ErrorPolicy.all ErrorPolicy.name

def Segment.toJson : Segment → Json
  | .key k => .obj [("key", .str k)]
  | .index i => .obj [("index", .int i)]

def Segment.ofJson? : Json → Option Segment
  | .obj [(name, value)] =>
    if name = "key" then value.str?.map .key
    else if name = "index" then value.word?.map .index
    else none
  | _ => none

def Options.toJson (o : Options) : Json :=
  .obj [("known_fields", .bool o.knownFields), ("error_policy", o.policy.toJson)]

def Options.ofJson? (j : Json) : Option Options := do
  let members ← j.record? ["known_fields", "error_policy"]
  let knownFields ← Json.getD? members "known_fields" false Json.bool?
  let policy ← Json.getD? members "error_policy" .collectAll ErrorPolicy.ofJson?
  return ⟨knownFields, policy⟩

def Diagnostic.toJson (d : Diagnostic) : Json :=
  .obj ([("line", .int d.line), ("column", .int d.column), ("cause", d.cause.toJson),
    ("node_tag", d.tag.toJson), ("target", .str d.target), ("path", .str d.path),
    ("message", .str d.message)] ++ d.name.toList.map fun name => ("name", .str name))

/-- A text that may be null. -/
def Diagnostic.nameOfJson? : Json → Option (Option String)
  | .null => some none
  | .str s => some (some s)
  | _ => none

def Diagnostic.ofJson? (j : Json) : Option Diagnostic := do
  let members ← j.record?
    ["line", "column", "cause", "node_tag", "target", "name", "path", "message"]
  let line ← (Json.find "line" members).bind Json.word?
  let column ← (Json.find "column" members).bind Json.word?
  let cause ← (Json.find "cause" members).bind Cause.ofJson?
  let tag ← (Json.find "node_tag" members).bind Tag.ofJson?
  let target ← (Json.find "target" members).bind Json.str?
  let name ← Json.getD? members "name" none Diagnostic.nameOfJson?
  let path ← (Json.find "path" members).bind Json.str?
  let message ← (Json.find "message" members).bind Json.str?
  return ⟨line, column, cause, tag, target, name, path, message⟩

end YamlDecode
