/-
What comes out of decoding has the type that was asked for.

`Conforms` says which values are of a target.  Null is of every target, and nothing else is
of a struct that cannot be laid out.

Tags and texts of a tree built by hand need not agree, so this is not read off the
document: a number is in range since `scalarIn` has read it, and a member of a struct has
the name of a field since the layout found it.  What error paths leave behind does not
count, for by `decode_eq` there is a value only if there is no error, and the values of
`valueIn` conform wherever `errorsIn` finds none.
-/
import Mathlib
import YamlDecode.Proofs.Decode.Errors
import YamlDecode.Proofs.Number.Numeral
import YamlDecode.Proofs.Target.Leaves

namespace YamlDecode

/-! ### Flattened fields -/

mutual

/-- The fields of a struct by their keys, those of an inlined struct in the place of the field
that holds it. -/
def Field.flattened : List Field → List (String × Target)
  | [] => []
  | f :: fields => f.parts ++ Field.flattened fields

def Field.parts : Field → List (String × Target)
  | ⟨key, target, _, inlined⟩ => if inlined then target.parts else [(key, target)]

def Target.parts : Target → List (String × Target)
  | ⟨_, shape⟩ => shape.parts

def Shape.parts : Shape → List (String × Target)
  | .struct fields => Field.flattened fields
  | _ => []

end

mutual

theorem Field.flattened_eq : ∀ fields : List Field,
    Field.flattened fields = (Field.leaves fields).map fun f => (f.key, f.target)
  | [] => by rw [Field.flattened, Field.leaves, List.map_nil]
  | f :: fields => by
      rw [Field.flattened, Field.leaves, List.map_append, f.parts_eq, Field.flattened_eq fields]

theorem Field.parts_eq : ∀ f : Field, f.parts = f.ownLeaves.map fun f => (f.key, f.target)
  | ⟨key, target, aliases, inlined⟩ => by
      rw [Field.parts, Field.ownLeaves]
      cases inlined with
      | true => exact target.parts_eq
      | false => rfl

theorem Target.parts_eq : ∀ target : Target,
    target.parts = target.leaves.map fun f => (f.key, f.target)
  | ⟨_, shape⟩ => by
      rw [Target.parts, Target.leaves]
      exact shape.parts_eq

theorem Shape.parts_eq : ∀ shape : Shape,
    shape.parts = shape.leaves.map fun f => (f.key, f.target)
  | .struct fields => by
      rw [Shape.parts, Shape.leaves]
      exact Field.flattened_eq fields
  | .any | .bool | .int | .uint | .float | .string | .sequence _ | .map _ _ => by
      simp [Shape.parts, Shape.leaves]

end

/-- What a layout finds is a field of the struct. -/
theorem Layout.mem_flattened_of_lookup {target : Target} {fields : List Field} {layout : Layout}
    {key : String} {slot : Slot} (hshape : target.shape = .struct fields)
    (hlayout : target.layout = .ok layout) (hslot : layout.lookup key = some slot) :
    (slot.key, slot.target) ∈ Field.flattened fields := by
  obtain ⟨name, shape⟩ := target
  obtain rfl : shape = .struct fields := hshape
  obtain ⟨f, hf, -, hfield⟩ := ((of_layout hlayout).lookup_iff key slot).1 hslot
  rw [Target.leaves, Shape.leaves] at hf
  rw [Field.flattened_eq, hfield]
  exact List.mem_map_of_mem (List.mem_of_getElem? hf)

/-! ### Values of a target -/

/-- The values of a target. -/
inductive Conforms : Target → Json → Prop
  | null (target : Target) : Conforms target .null
  | any (name : String) (v : Json) : Conforms ⟨name, .any⟩ v
  | bool (name : String) (b : Bool) : Conforms ⟨name, .bool⟩ (.bool b)
  | int (name : String) {n : Int} (low : -2 ^ 63 ≤ n) (high : n < 2 ^ 63) :
      Conforms ⟨name, .int⟩ (.int n)
  | uint (name : String) {n : Int} (low : 0 ≤ n) (high : n < 2 ^ 64) :
      Conforms ⟨name, .uint⟩ (.int n)
  | float (name : String) (d : Double) : Conforms ⟨name, .float⟩ (.float d)
  | string (name : String) (s : String) : Conforms ⟨name, .string⟩ (.str s)
  | sequence (name : String) {element : Target} {items : List Json}
      (items_conform : ∀ v ∈ items, Conforms element v) :
      Conforms ⟨name, .sequence element⟩ (.arr items)
  | map (name : String) (key : Target) {value : Target} {members : List (String × Json)}
      (values_conform : ∀ m ∈ members, Conforms value m.2) :
      Conforms ⟨name, .map key value⟩ (.obj members)
  /-- A struct holds members of its fields, each of the field's target, which `fieldTarget`
  gives; its layout must be valid. -/
  | struct (name : String) {fields : List Field} {layout : Layout}
      {members : List (String × Json)} (fieldTarget : String × Json → Target)
      (valid : Target.layout ⟨name, .struct fields⟩ = .ok layout)
      (named : ∀ m ∈ members, (m.1, fieldTarget m) ∈ Field.flattened fields)
      (values_conform : ∀ m ∈ members, Conforms (fieldTarget m) m.2) :
      Conforms ⟨name, .struct fields⟩ (.obj members)

namespace Conforms

/-- Only null is of a struct that cannot be laid out. -/
theorem eq_null_of_defect {target : Target} {v : Json} {d : Defect}
    (h : Conforms target v) (hd : target.layout = .error d) : v = .null := by
  cases h with
  | null => rfl
  | struct name fieldTarget valid =>
      rw [valid] at hd
      cases hd
  | any | bool | int | uint | float | string | sequence | map => cases hd

end Conforms

/-- What a scalar is read as in a shape conforms to it. -/
theorem conforms_of_scalarIn {target : Target} {tag : Tag} {value : String} {v : Json}
    (h : scalarIn target.shape tag value = some v) : Conforms target v := by
  obtain ⟨name, shape⟩ := target
  cases shape with
  | any => exact .any name v
  | bool =>
      obtain ⟨-, h⟩ := Option.ite_none_right_eq_some.1 h
      cases h
      exact .bool name _
  | int =>
      obtain ⟨-, h⟩ := Option.ite_none_right_eq_some.1 h
      obtain ⟨n, hn, rfl⟩ := Option.map_eq_some_iff.1 h
      exact .int name (range_of_readSigned hn).1 (range_of_readSigned hn).2
  | uint =>
      obtain ⟨-, h⟩ := Option.ite_none_right_eq_some.1 h
      obtain ⟨n, hn, rfl⟩ := Option.map_eq_some_iff.1 h
      exact .uint name (range_of_readUnsigned hn).1 (range_of_readUnsigned hn).2
  | float =>
      obtain ⟨-, h⟩ := Option.ite_none_right_eq_some.1 h
      obtain ⟨d, -, rfl⟩ := Option.map_eq_some_iff.1 h
      exact .float name d
  | string =>
      obtain ⟨-, h⟩ := Option.ite_none_left_eq_some.1 h
      cases h
      exact .string name value
  | sequence element => cases h
  | map key value => cases h
  | struct fields => cases h

/-! ### Values of trees without errors -/

variable {t : Tree} {strict : Bool}

/-- A node without errors was not refused for its tag. -/
theorem of_misfit_eq_nil {c : Prop} [Decidable c] {r : Tree.Ref t} {target : Target}
    {es : List (DecodeError t)} (h : (if c then es else [misfit r target]) = []) :
    c ∧ es = [] := by
  split at h
  · next hc => exact ⟨hc, h⟩
  · cases h

theorem conforms_scalar {target : Target} {r : Tree.Ref t}
    (h : (if (scalarIn target.shape r.tag r.value).isSome then [] else [misfit r target]) = []) :
    Conforms target ((scalarIn target.shape r.tag r.value).getD .null) := by
  obtain ⟨v, hv⟩ := Option.isSome_iff_exists.1 (of_misfit_eq_nil h).1
  rw [hv]
  exact conforms_of_scalarIn hv

mutual

theorem conforms_valueIn (target : Target) : ∀ r : Rose (Tree.Ref t),
    errorsIn strict target r = [] → Conforms target (valueIn target r)
  | .node r below, h => by
      unfold errorsIn at h
      unfold valueIn
      by_cases hnull : r.tag = .null
      · rw [if_pos hnull]
        exact .null target
      · rw [if_neg hnull] at h ⊢
        obtain ⟨name, shape⟩ := target
        cases shape with
        | struct fields =>
            cases hlayout : Target.layout ⟨name, .struct fields⟩ with
            | error d =>
                rw [hlayout] at h
                cases h
            | ok layout =>
                rw [hlayout] at h
                have hinside := (mappingErrors_eq_nil.1 (of_misfit_eq_nil h).2).2
                have hfields := conforms_fieldValues layout below [] hinside
                choose! fieldTarget hfound hconform using hfields
                refine .struct name fieldTarget hlayout ?_ hconform
                intro m hm
                obtain ⟨key, slot, hslot, hname, htarget⟩ := hfound m hm
                rw [hname, htarget]
                exact Layout.mem_flattened_of_lookup rfl hlayout hslot
        | sequence element =>
            exact .sequence name (conforms_itemValues element below (of_misfit_eq_nil h).2)
        | map key value =>
            have hinside := (mappingErrors_eq_nil.1 (of_misfit_eq_nil h).2).2
            exact .map name key (conforms_entryValues key value below hinside)
        | any => exact .any name _
        | bool => exact conforms_scalar h
        | int => exact conforms_scalar h
        | uint => exact conforms_scalar h
        | float => exact conforms_scalar h
        | string => exact conforms_scalar h

theorem conforms_itemValues (element : Target) : ∀ below : List (Rose (Tree.Ref t)),
    itemErrors strict element below = [] → ∀ v ∈ itemValues element below, Conforms element v
  | [], _, v, hv => by
      unfold itemValues at hv
      cases hv
  | item :: rest, h, v, hv => by
      rw [itemErrors, List.append_eq_nil_iff] at h
      unfold itemValues at hv
      rcases List.mem_cons.1 hv with rfl | hv
      · exact conforms_valueIn element item h.1
      · exact conforms_itemValues element rest h.2 v hv

theorem conforms_entryValues (key value : Target) : ∀ below : List (Rose (Tree.Ref t)),
    entryErrors strict key value below = [] →
      ∀ m ∈ entryValues key value below, Conforms value m.2
  | k :: v :: rest, h, m, hm => by
      rw [entryErrors, List.append_eq_nil_iff] at h
      unfold entryValues at hm
      rcases List.mem_cons.1 hm with rfl | hm
      · refine conforms_valueIn value v ?_
        -- The errors of a key would stand in the place of those of its value.
        cases hkey : errorsIn strict key k with
        | nil => simpa [hkey] using h.1
        | cons e es => simp [hkey] at h
      · exact conforms_entryValues key value rest h.2 m hm
  | [_], _, m, hm => by simp [entryValues] at hm
  | [], _, m, hm => by simp [entryValues] at hm

theorem conforms_fieldValues {target : Target} (layout : Layout) :
    ∀ (below : List (Rose (Tree.Ref t))) (earlier : List (Tree.Ref t)),
      fieldErrors strict target layout earlier below = [] →
        ∀ m ∈ fieldValues layout below, ∃ fieldTarget,
          (∃ key slot, layout.lookup key = some slot ∧ m.1 = slot.key ∧ fieldTarget = slot.target) ∧
            Conforms fieldTarget m.2
  | k :: v :: rest, earlier, h, m, hm => by
      rw [fieldErrors, List.append_eq_nil_iff] at h
      unfold fieldValues at hm
      cases hslot : layout.lookup k.label.value with
      | none =>
          rw [hslot] at hm
          exact conforms_fieldValues layout rest _ h.2 m hm
      | some slot =>
          simp only [hslot] at h hm
          rcases List.mem_cons.1 hm with rfl | hm
          · refine ⟨slot.target, ⟨_, slot, hslot, rfl, rfl⟩, conforms_valueIn slot.target v ?_⟩
            cases hfind : earlier.find? (layout.binds slot.id) with
            | none => simpa [hfind] using h.1
            | some first => simp [hfind] at h
          · exact conforms_fieldValues layout rest _ h.2 m hm
  | [_], _, _, m, hm => by simp [fieldValues] at hm
  | [], _, _, m, hm => by simp [fieldValues] at hm

end

/--
**What decodes has its type.**

Whatever the tree and the options, a value that comes out is of the target, and nothing but
null comes out of a struct that cannot be laid out.
-/
theorem decode_conforms (options : Options) (t : Tree) (target : Target) {v : Json}
    (h : decode options t target = .ok v) :
    Conforms target v ∧ ∀ d, target.layout = .error d → v = .null := by
  rw [decode_eq] at h
  split at h
  · next hnil =>
    obtain rfl := Except.ok.inj h
    have hconforms : Conforms target (t.decoded target) := by
      rw [List.isEmpty_iff, Tree.errors] at hnil
      unfold Tree.decoded
      cases hroot : t.root? with
      | none => exact .null target
      | some root =>
          rw [hroot] at hnil
          exact conforms_valueIn target root.view hnil
    exact ⟨hconforms, fun d hd => hconforms.eq_null_of_defect hd⟩
  · cases h

/-- A struct with an alias and an inlined struct, from a tree that stops at its first error. -/
theorem decode_conforms_service :
    Conforms
        (.struct "service" [⟨"name", .string, ["title"], false⟩,
          ⟨"net", .struct "net" [⟨"port", .uint, [], false⟩], [], true⟩])
        (.obj [("name", .str "web"), ("port", .int 80)]) ∧
      ∀ d, Target.layout
        (.struct "service" [⟨"name", .string, ["title"], false⟩,
          ⟨"net", .struct "net" [⟨"port", .uint, [], false⟩], [], true⟩]) = .error d →
        Json.obj [("name", .str "web"), ("port", .int 80)] = .null :=
  decode_conforms ⟨true, .firstError⟩
    (((((Tree.empty.push none ⟨.map, "", 1, 1⟩).push (some 0) ⟨.str, "title", 1, 1⟩).push (some 0)
      ⟨.str, "web", 1, 8⟩).push (some 0) ⟨.str, "port", 2, 1⟩).push (some 0) ⟨.int, "80", 2, 7⟩)
    _ (by cbv)

end YamlDecode
