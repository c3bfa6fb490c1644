/-
Which entry of a mapping binds which field of a struct.

A layout numbers the fields, a pass keeps a table of the numbers that are bound, and what comes
out is listed under the keys of the fields.  For a mapping whose keys are all different none of
this is needed to say what happens.  The fields are the leaves of the struct, an entry is of the
field that has its key, and the first entry of a field is its `binder?`.

`Share` lists what an entry may add to the errors: that its key is of no field, that its field is
bound already, or what is wrong with its value.  Only a binder's value is looked at, and only it
comes out.

That no member of the object is written twice is not clear from the numbers.  Two fields with one
key would give two members of one name, but the layout would not have been valid then.
-/
import Mathlib
import YamlDecode.Proofs.Decode.Origin
import YamlDecode.Proofs.Target.Leaves

namespace YamlDecode

open YamlDecode.Tree

variable {t : Tree}

/-! ### Binders -/

/-- The entry that binds a field: the first one whose key is the field's. -/
def Tree.Ref.binder? (r : Ref t) (f : Field) : Option (Ref t × Ref t) :=
  r.entries.find? fun e => e.1.value ∈ f.keys

theorem Tree.Ref.mem_keys_of_binder {r : Ref t} {f : Field} {e : Ref t × Ref t}
    (h : r.binder? f = some e) : e.1.value ∈ f.keys := by
  simpa using List.find?_some h

/-- What is said of a key whose field another key has bound. -/
def setBefore (target : Target) (first later : Ref t) : TextError t :=
  ⟨later, nonEmpty later.value, .keyAlreadyDefined, target, [(priorLine, toString first.line)]⟩

/-- What an entry adds to the errors of a mapping in a struct that has these fields. -/
inductive Share (strict : Bool) (target : Target) (fields : List Field) (r : Ref t)
    (e : Ref t × Ref t) : List (DecodeError t) → Prop
  /-- No field has the key, which is an error if keys must be known. -/
  | free (unknown : ∀ f ∈ fields, e.1.value ∉ f.keys) :
      Share strict target fields r e (if strict then [unknownKey e.1 target] else [])
  /-- The entry binds a field and has the errors of its value there. -/
  | binds {f : Field} (field : f ∈ fields) (binder : r.binder? f = some e) :
      Share strict target fields r e (errorsIn strict f.target e.2.view)
  /-- Another entry binds the field, and there is one error that says so. -/
  | again {f : Field} {first : Ref t × Ref t} {error : DecodeError t} (field : f ∈ fields)
      (key : e.1.value ∈ f.keys) (binder : r.binder? f = some first) (other : first ≠ e)
      (text : error.text? = some (setBefore target first.1 e.1)) :
      Share strict target fields r e [error]

section Shares

variable {strict : Bool} {target : Target} {fields : List Field} {layout : Layout} {r : Ref t}

/-- The keys that bind a field by its number are the keys it has. -/
theorem Layout.Of.binds_eq (h : layout.Of fields) {id : Nat} {f : Field}
    (hf : fields[id]? = some f) (key : Ref t) :
    layout.binds id key = decide (key.value ∈ f.keys) := by
  rw [Layout.binds, Bool.eq_iff_iff, decide_eq_true_eq, Option.any_eq_true]
  constructor
  · rintro ⟨slot, hslot, hid⟩
    obtain ⟨g, hg, hkey, -⟩ := (h.lookup_iff _ _).1 hslot
    rw [of_decide_eq_true hid, hf] at hg
    exact Option.some.inj hg ▸ hkey
  · intro hkey
    exact ⟨⟨id, f.key, f.target⟩, (h.lookup_iff _ _).2 ⟨f, hf, hkey, rfl⟩, decide_eq_true rfl⟩

variable (h : layout.Of fields) (hdistinct : (r.keys.map Ref.value).Nodup)

include h hdistinct

/-- The share of an entry is decided by the keys in front of it. -/
theorem share_of_entry {front rest : List (Ref t × Ref t)} {e : Ref t × Ref t}
    (hentries : r.entries = front ++ e :: rest) :
    Share strict target fields r e
      (match layout.lookup e.1.value with
        | none => if strict then [unknownKey e.1 target] else []
        | some slot =>
          match (front.map Prod.fst).find? (layout.binds slot.id) with
          | some first => [boundBefore e.1 first target]
          | none => errorsIn strict slot.target e.2.view) := by
  cases hslot : layout.lookup e.1.value with
  | none => exact .free (h.lookup_eq_none.1 hslot)
  | some slot =>
      obtain ⟨f, hf, hkey, heq⟩ := (h.lookup_iff _ _).1 hslot
      have hfield : f ∈ fields := List.mem_of_getElem? hf
      have hfind : (front.map Prod.fst).find? (layout.binds slot.id) =
          (front.find? fun e => e.1.value ∈ f.keys).map Prod.fst := by
        rw [List.find?_map, funext (h.binds_eq hf)]
        rfl
      have hbinder : r.binder? f = (front.find? fun e => e.1.value ∈ f.keys).or (some e) := by
        rw [Ref.binder?, hentries, List.find?_append, List.find?_cons_of_pos (by simpa using hkey)]
      simp only [hfind]
      cases hfirst : front.find? fun e => e.1.value ∈ f.keys with
      | none =>
          rw [hfirst] at hbinder
          rw [heq]
          exact .binds hfield hbinder
      | some first =>
          rw [hfirst] at hbinder
          refine .again hfield hkey hbinder ?_ rfl
          -- An entry that stands in front of itself would have its key twice.
          rintro rfl
          have hmem := List.mem_of_find?_eq_some hfirst
          rw [Ref.keys, hentries, List.map_append, List.map_append, List.nodup_append] at hdistinct
          exact hdistinct.2.2 _ (List.mem_map_of_mem (List.mem_map_of_mem hmem)) _ (by simp) rfl

/-- The errors of a mapping are the shares of its entries, one after the other. -/
theorem exists_shares : ∀ {below : List (Rose (Ref t))} {front rest : List (Ref t × Ref t)},
    r.entries = front ++ rest → pairs below = rest.map (Prod.map Ref.view Ref.view) →
      ∃ shares, fieldErrors strict target layout (front.map Prod.fst) below = shares.flatten ∧
        List.Forall₂ (Share strict target fields r) rest shares
  | k :: v :: below, front, rest, hentries, hpairs => by
      rw [pairs_cons_cons] at hpairs
      obtain ⟨e, rest, rfl, he, hbelow⟩ := List.map_eq_cons_iff.1 hpairs.symm
      obtain ⟨rfl, rfl⟩ := Prod.mk.inj he
      have hshare : Share strict target fields r e _ := share_of_entry h hdistinct hentries
      obtain ⟨shares, hshares, hall⟩ :=
        exists_shares (hentries.trans (List.append_cons front e rest)) hbelow.symm
      refine ⟨_ :: shares, ?_, .cons hshare hall⟩
      rw [fieldErrors, List.flatten_cons, ← hshares, e.1.label_view, List.map_append]
      rfl
  | [_], front, rest, _, hpairs => by
      obtain rfl : rest = [] := List.map_eq_nil_iff.1 hpairs.symm
      exact ⟨[], rfl, .nil⟩
  | [], front, rest, _, hpairs => by
      obtain rfl : rest = [] := List.map_eq_nil_iff.1 hpairs.symm
      exact ⟨[], rfl, .nil⟩

end Shares

/-! ### Members -/

/-- If nothing is added to the errors then every share is empty. -/
theorem share_nil_of_flatten {strict : Bool} {target : Target} {fields : List Field} {r : Ref t}
    {entries : List (Ref t × Ref t)} {shares : List (List (DecodeError t))}
    (hall : List.Forall₂ (Share strict target fields r) entries shares)
    (hnil : shares.flatten = []) : ∀ e ∈ entries, Share strict target fields r e [] := by
  induction hall with
  | nil => nofun
  | cons hshare _ ih =>
      rw [List.flatten_cons, List.append_eq_nil_iff] at hnil
      rw [hnil.1] at hshare
      exact List.forall_mem_cons.2 ⟨hshare, ih hnil.2⟩

section Members

variable {strict : Bool} {target : Target} {layout : Layout} {r : Ref t}

/-- If there are no errors then the members are the fields that are bound, each of its binder. -/
theorem mem_fieldValues {fields : List Field} (h : layout.Of fields) (hmap : r.tag = .map)
    (hshares : ∀ e ∈ r.entries, Share strict target fields r e []) {name : String} {v : Json} :
    (name, v) ∈ fieldValues layout (r.children.map Ref.view) ↔
      ∃ f ∈ fields, ∃ e, r.binder? f = some e ∧ f.key = name ∧
        errorsIn strict f.target e.2.view = [] ∧ valueIn f.target e.2.view = v := by
  rw [fieldValues_view hmap, List.mem_filterMap]
  constructor
  · rintro ⟨e, he, hmember⟩
    obtain ⟨slot, hslot, hmember⟩ := Option.map_eq_some_iff.1 hmember
    obtain ⟨f, hf, hkey, heq⟩ := (h.lookup_iff _ _).1 hslot
    have hfield : f ∈ fields := List.mem_of_getElem? hf
    rw [heq] at hmember
    obtain ⟨rfl, rfl⟩ := Prod.mk.inj hmember
    obtain ⟨es, hes, hshare⟩ : ∃ es, es = [] ∧ Share strict target fields r e es :=
      ⟨[], rfl, hshares e he⟩
    cases hshare with
    | free unknown => exact absurd hkey (unknown f hfield)
    | binds hfield' hbinder =>
        have hkey' := Ref.mem_keys_of_binder hbinder
        obtain rfl := h.eq_of_mem_keys hfield' hfield hkey' hkey
        exact ⟨_, hfield, e, hbinder, rfl, hes, rfl⟩
    | again => cases hes
  · rintro ⟨f, hf, e, hbinder, rfl, -, rfl⟩
    obtain ⟨i, -, hslot⟩ := h.exists_lookup_eq hf (Ref.mem_keys_of_binder hbinder)
    refine ⟨e, List.mem_of_find?_eq_some hbinder, ?_⟩
    rw [hslot]
    rfl

theorem errorsIn_struct {fields : List Field} (hshape : target.shape = .struct fields)
    (hlayout : target.layout = .ok layout) (hmap : r.tag = .map)
    (hdistinct : (r.keys.map Ref.value).Nodup) :
    errorsIn strict target r.view =
      fieldErrors strict target layout [] (r.children.map Ref.view) := by
  have hnull : r.tag ≠ .null := hmap ▸ nofun
  rw [r.view_eq, errorsIn, if_neg hnull]
  simp only [hshape, hlayout, if_pos hmap]
  rw [mappingErrors, Ref.keys_eq hmap, if_pos hdistinct]

theorem valueIn_struct {fields : List Field} (hshape : target.shape = .struct fields)
    (hlayout : target.layout = .ok layout) (hmap : r.tag = .map) :
    valueIn target r.view = .obj (fieldValues layout (r.children.map Ref.view)) := by
  have hnull : r.tag ≠ .null := hmap ▸ nofun
  rw [r.view_eq, valueIn, if_neg hnull]
  simp only [hshape, hlayout]

/--
**The first entry of a field binds it, and each later one is an error.**

A pass that collects all errors and comes to a mapping whose keys are all different, in a struct
with a valid layout, adds to the errors the shares of the entries, one after the other, up to the
first defect of a target.  An entry of a field that another one binds has one error as its share.
Its value is not looked at, and the line of the binding key is kept; the name is the key, which
says that a field is meant, but an empty key is no name.

If there is nothing to add then there is an object.  Its members are the fields that are bound,
each under its own key and with what the value of its binder decodes to, and no two of them have
one name.
-/
theorem assign_binds {fields : List Field} (hshape : target.shape = .struct fields)
    (hlayout : target.layout = .ok layout) (hmap : r.tag = .map)
    (hdistinct : (r.keys.map Ref.value).Nodup) (strict : Bool) (s : Array (DecodeError t)) :
    ∃ (o : Option Json) (shares : List (List (DecodeError t))),
      (Pass.assign ⟨strict, .collectAll⟩ target r.view).run.run s =
        (o, s ++ (upToFirst DecodeError.isDefect shares.flatten).toArray) ∧
      List.Forall₂ (Share strict target target.leaves r) r.entries shares ∧
      (shares.flatten = [] → ∃ members, o = some (.obj members) ∧
        (members.map Prod.fst).Nodup ∧
        ∀ name v, (name, v) ∈ members ↔ ∃ f ∈ target.leaves, ∃ e,
          r.binder? f = some e ∧ f.key = name ∧
            (Pass.assign ⟨strict, .collectAll⟩ f.target e.2.view).result = .ok v) := by
  have hof := Layout.of_layout hlayout
  have hyields : Pass.Yields ⟨strict, .collectAll⟩ (Pass.assign ⟨strict, .collectAll⟩ target r.view)
      (errorsIn strict target r.view) (valueIn target r.view) := Pass.assign_yields target r.view
  obtain ⟨o, hrun, -, hval⟩ := hyields s
  obtain ⟨shares, hshares, hall⟩ : ∃ shares : List (List (DecodeError t)),
      fieldErrors strict target layout [] (r.children.map Ref.view) = shares.flatten ∧
        List.Forall₂ (Share strict target target.leaves r) r.entries shares :=
    exists_shares hof hdistinct (List.nil_append r.entries).symm (pairs_view hmap)
  rw [Pass.stops_collectAll, errorsIn_struct hshape hlayout hmap hdistinct] at hrun
  rw [errorsIn_struct hshape hlayout hmap hdistinct, valueIn_struct hshape hlayout hmap] at hval
  refine ⟨o, shares, ?_, hall, fun hnil => ?_⟩
  · rw [← hshares]
    exact hrun
  · have hempty := share_nil_of_flatten hall hnil
    rw [← hshares] at hnil
    have hids := (fieldErrors_eq_nil.1 hnil).2.1
    rw [keys_view hmap] at hids
    refine ⟨_, hval hnil, nodup_fieldValues (Layout.owned_layout hlayout) hmap hids, ?_⟩
    intro name v
    rw [mem_fieldValues hof hmap hempty]
    simp only [result_assign_eq_ok]

end Members

/-- A field of an inlined struct is bound by its alias, and again by its key with an unfit value. -/
theorem assign_binds_inlined :
    ∃ (t : Tree) (r : Ref t) (layout : Layout) (target : Target) (o : Option Json)
      (shares : List (List (DecodeError t))),
      parse "b: 1\nc: 2\na: x\nd: 4\n" = .ok t ∧ t.root? = some r ∧
      target = .struct "s" [⟨"u", .struct "u" [⟨"a", .int, ["b"], false⟩], [], true⟩,
        ⟨"c", .int, [], false⟩] ∧
      target.layout = .ok layout ∧ r.tag = .map ∧ (r.keys.map Ref.value).Nodup ∧
      (Pass.assign ⟨true, .collectAll⟩ target r.view).run.run #[] =
        (o, #[] ++ (upToFirst DecodeError.isDefect shares.flatten).toArray) ∧
      List.Forall₂ (Share true target target.leaves r) r.entries shares ∧
      (upToFirst DecodeError.isDefect shares.flatten).map DecodeError.message =
        ["line 3: field a already set in type s", "line 4: field d not found in type s"] := by
  have hread : Document.read "b: 1\nc: 2\na: x\nd: 4\n".toList = .ok (.node ⟨.map, "", 1, 1⟩
      [Document.leaf .str ['b'] 1 1, Document.leaf .int ['1'] 1 4,
        Document.leaf .str ['c'] 2 1, Document.leaf .int ['2'] 2 4,
        Document.leaf .str ['a'] 3 1, Document.leaf .str ['x'] 3 4,
        Document.leaf .str ['d'] 4 1, Document.leaf .int ['4'] 4 4]) := by cbv
  obtain ⟨t, r, layout, target, fields, hparse, hroot, htarget, hshape, hlayout, hmap, hdistinct,
      hmessages⟩ :
      ∃ (t : Tree) (r : Ref t) (layout : Layout) (target : Target) (fields : List Field),
        parse "b: 1\nc: 2\na: x\nd: 4\n" = .ok t ∧ t.root? = some r ∧
        target = .struct "s" [⟨"u", .struct "u" [⟨"a", .int, ["b"], false⟩], [], true⟩,
          ⟨"c", .int, [], false⟩] ∧
        target.shape = .struct fields ∧ target.layout = .ok layout ∧ r.tag = .map ∧
        (r.keys.map Ref.value).Nodup ∧
        ((Pass.assign ⟨true, .collectAll⟩ target r.view).run.run #[]).2.toList.map
          DecodeError.message =
            ["line 3: field a already set in type s", "line 4: field d not found in type s"] :=
    ⟨_, ⟨0, by decide +kernel⟩, _, _, _, congrArg (Except.map Tree.ofRose) hread, rfl, rfl, rfl,
      rfl, rfl, by decide +kernel, by decide +kernel⟩
  obtain ⟨o, shares, hrun, hall, -⟩ := assign_binds hshape hlayout hmap hdistinct true #[]
  refine ⟨t, r, layout, target, o, shares, hparse, hroot, htarget, hlayout, hmap, hdistinct, hrun,
    hall, ?_⟩
  rw [hrun] at hmessages
  simpa using hmessages

/-- A field is bound by its key and again by the empty alias: the keys differ, and the one error
that is recorded has no name, so that it is not one of a field. -/
theorem binds_emptyAlias :
    ∃ (t : Tree) (r : Ref t) (es : List (DecodeError t)) (target : Target),
      parse "a: 1\n\"\": 2\n" = .ok t ∧ t.root? = some r ∧ r.tag = .map ∧
      (r.keys.map Ref.value).Nodup ∧
      target = .struct "s" [⟨"u", .struct "u" [⟨"a", .int, [""], false⟩], [], true⟩] ∧
      decode ⟨false, .collectAll⟩ t target = .error es ∧
      es.map (fun e => e.text?.map fun x => (x.cause, x.name)) =
        [some (.keyAlreadyDefined, none)] ∧
      es.map DecodeError.message = ["line 2: mapping key \"\" already defined at line 1"] := by
  have hread : Document.read "a: 1\n\"\": 2\n".toList = .ok (.node ⟨.map, "", 1, 1⟩
      [Document.leaf .str ['a'] 1 1, Document.leaf .int ['1'] 1 4,
        Document.leaf .str [] 2 1, Document.leaf .int ['2'] 2 5]) := by cbv
  have hparse := congrArg (Except.map Tree.ofRose) hread
  refine ⟨_, ⟨0, by decide +kernel⟩, _, _, hparse, rfl, rfl, ?_, rfl,
    decode_eq_error.2 ⟨?_, rfl⟩, ?_, ?_⟩
  · decide +kernel
  · exact List.isEmpty_eq_false_iff.1 (by decide +kernel)
  · decide +kernel
  · decide +kernel

end YamlDecode
