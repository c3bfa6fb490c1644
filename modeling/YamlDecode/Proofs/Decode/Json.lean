/-
What is stored as JSON is read back.

A word of a fixed set is stored as its name and found by it again, since no two have one name.  An
object is read member by member, and a member that was left out stands for what is usual.  Numbers
of lines and columns are read as words of 64 bits, and so are read back below 2 ^ 64 only.
-/
import Mathlib.Algebra.Ring.Nat
import YamlDecode.Decode.Json
import YamlDecode.Proofs.Number.Numeral
import YamlDecode.Proofs.Target.Json

namespace YamlDecode

theorem Json.word?_int {n : Nat} (h : n < 2 ^ 64) : Json.word? (.int n) = some n := by
  have hfits : fitsUnsigned n = true := (fitsUnsigned_iff n).2 ⟨by omega, by omega⟩
  rw [word?, if_pos hfits, Int.toNat_natCast]

theorem Tag.ofJson?_toJson (t : Tag) : Tag.ofJson? t.toJson = some t := by
  cases t <;> rfl

theorem Cause.ofJson?_toJson (c : Cause) : Cause.ofJson? c.toJson = some c := by
  cases c <;> rfl

theorem ErrorPolicy.ofJson?_toJson (p : ErrorPolicy) : ErrorPolicy.ofJson? p.toJson = some p := by
  cases p <;> rfl

theorem Options.ofJson?_toJson (o : Options) : Options.ofJson? o.toJson = some o := by
  show (do
    let knownFields ← Json.bool? (.bool o.knownFields)
    let policy ← ErrorPolicy.ofJson? o.policy.toJson
    return ⟨knownFields, policy⟩) = some o
  rw [o.policy.ofJson?_toJson]
  rfl

/-- Each member of a stored diagnostic is found, and the name if there is one. -/
theorem Diagnostic.ofJson?_obj (line column cause tag : Json) (target path message : String)
    (name : Option String) :
    Diagnostic.ofJson? (.obj ([("line", line), ("column", column), ("cause", cause),
      ("node_tag", tag), ("target", .str target), ("path", .str path), ("message", .str message)]
      ++ name.toList.map fun name => ("name", .str name))) = (do
        let line ← Json.word? line
        let column ← Json.word? column
        let cause ← Cause.ofJson? cause
        let tag ← Tag.ofJson? tag
        return ⟨line, column, cause, tag, target, name, path, message⟩) := by
  cases name <;> rfl

theorem Diagnostic.ofJson?_toJson (d : Diagnostic) (hline : d.line < 2 ^ 64)
    (hcolumn : d.column < 2 ^ 64) : Diagnostic.ofJson? d.toJson = some d := by
  rw [Diagnostic.toJson, Diagnostic.ofJson?_obj, Json.word?_int hline, Json.word?_int hcolumn,
    Cause.ofJson?_toJson, Tag.ofJson?_toJson]
  rfl

/--
**What is stored is read back.**

Targets, options and diagnostics come back from JSON as they were written, and a target also if
members that mean nothing have been added to it at any depth.
-/
theorem ofJson?_stored (target : Target) (options : Options) (d : Diagnostic)
    (hline : d.line < 2 ^ 64) (hcolumn : d.column < 2 ^ 64) :
    (Target.ofJson? target.toJson = some target ∧
      ∀ j, Surplus .target target.toJson j → Target.ofJson? j = some target) ∧
    Options.ofJson? options.toJson = some options ∧
    Diagnostic.ofJson? d.toJson = some d := by
  have hsurplus : ∀ j, Surplus .target target.toJson j → Target.ofJson? j = some target :=
    fun j h => target.read?_surplus false h
  refine ⟨⟨hsurplus _ (.refl .target _), hsurplus⟩, options.ofJson?_toJson, ?_⟩
  exact d.ofJson?_toJson hline hcolumn

/-- A field with an alias: something is added to the field, and to the shape of what it holds, there
under the name of a part that shapes of other kinds have. -/
theorem ofJson?_stored_field :
    let items : Json := .obj [("kind", .str "sequence"), ("value", .null),
      ("element", .obj [("name", .str "int"), ("shape", .obj [("kind", .str "int")])])]
    let field : Json := .obj [("note", .bool true), ("key", .str "a"),
      ("type", .obj [("name", .str "[]int"), ("shape", items)]), ("aliases", .arr [.str "b"])]
    let stored : Json := .obj [("name", .str "s"),
      ("shape", .obj [("kind", .str "struct"), ("fields", .arr [field])])]
    let target : Target := .struct "s" [⟨"a", .sequence .int, ["b"], false⟩]
    let d : Diagnostic := ⟨2 ^ 64 - 1, 1, .wrongType, .str, "int", some "b", "b[0]", "line 1"⟩
    Target.ofJson? stored = some target ∧
      (d.line < 2 ^ 64 ∧ d.column < 2 ^ 64) ∧ Diagnostic.ofJson? d.toJson = some d := by
  intro items field stored target d
  have hitems : Surplus .shape (Shape.sequence .int).toJson items :=
    .obj (.plain _ _ (.added (by decide) _ (.inner rfl (.refl _ _) (.nil _ _))))
  have htype : Surplus .target (Target.sequence .int).toJson
      (.obj [("name", .str "[]int"), ("shape", items)]) :=
    .obj (.plain _ _ (.inner rfl hitems (.nil _ _)))
  have hfield : Surplus .field (Field.toJson ⟨"a", .sequence .int, ["b"], false⟩) field :=
    .obj (.added (by decide) _ (.plain _ _ (.inner rfl htype (.plain _ _ (.nil _ _)))))
  have hfields : Surplus .field (.arr [Field.toJson ⟨"a", .sequence .int, ["b"], false⟩])
      (.arr [field]) :=
    .arr (.cons hfield (.nil _))
  have hstored : Surplus .target target.toJson stored :=
    .obj (.plain _ _ (.inner rfl (.obj (.plain _ _ (.inner rfl hfields (.nil _ _)))) (.nil _ _)))
  have hline : d.line < 2 ^ 64 := by decide
  have hcolumn : d.column < 2 ^ 64 := by decide
  obtain ⟨⟨-, htarget⟩, -, hd⟩ := ofJson?_stored target {} d hline hcolumn
  exact ⟨htarget stored hstored, ⟨hline, hcolumn⟩, hd⟩

end YamlDecode
