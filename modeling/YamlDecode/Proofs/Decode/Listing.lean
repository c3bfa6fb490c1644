/-
Errors and values of lists of nodes, entry by entry.

`errorsIn` and `valueIn` go along the nodes below a collection.  Where there are no errors the
order in which they do so is of no account: items have none if no item has one, entries if no
key and no value has one, and the members of a map or of a struct are then made of one entry
each.  Only a struct looks at more than one entry, since two keys may bind one field; the numbers
of the fields that keys bind, `boundIds`, must be all different.

So statements about whole lists need no recursion of their own along them.
-/
import Mathlib
import YamlDecode.Proofs.Decode.Errors
import YamlDecode.Proofs.Target.Layout

namespace YamlDecode

open YamlDecode.Tree

/-! ### Pairs -/

theorem Tree.pairs_map {α β : Type} (f : α → β) : ∀ xs : List α,
    pairs (xs.map f) = (pairs xs).map (Prod.map f f)
  | [] => rfl
  | [_] => rfl
  | x :: y :: rest => by
      rw [List.map_cons, List.map_cons, pairs_cons_cons, pairs_cons_cons, pairs_map f rest]
      rfl

/-- What holds of both elements of each pair holds of all elements, if none is left over. -/
theorem Tree.forall_pairs {α : Type} {P : α → Prop} : ∀ {xs : List α}, xs.length % 2 = 0 →
    ((∀ e ∈ pairs xs, P e.1 ∧ P e.2) ↔ ∀ x ∈ xs, P x)
  | [], _ => by simp
  | [_], heven => by cases heven
  | x :: y :: rest, heven => by
      have hrest : rest.length % 2 = 0 := by
        rw [List.length_cons, List.length_cons] at heven
        omega
      rw [pairs_cons_cons, List.forall_mem_cons, List.forall_mem_cons, List.forall_mem_cons,
        forall_pairs hrest, and_assoc]

variable {t : Tree} {strict : Bool} {element key value target : Target} {layout : Layout}

/-! ### Items and entries -/

theorem itemErrors_eq_nil {below : List (Rose (Ref t))} :
    itemErrors strict element below = [] ↔ ∀ item ∈ below, errorsIn strict element item = [] := by
  induction below with
  | nil => simp [itemErrors]
  | cons item rest ih => rw [itemErrors, List.append_eq_nil_iff, ih, List.forall_mem_cons]

theorem itemValues_eq (below : List (Rose (Ref t))) :
    itemValues element below = below.map (valueIn element) := by
  induction below with
  | nil => rfl
  | cons item rest ih => rw [itemValues, ih, List.map_cons]

theorem eq_value_of_untyped {tag : Tag} {text s : String}
    (h : untyped tag text = some (.str s)) : s = text := by
  cases tag with
  | int =>
      rw [untyped] at h
      cases hword : readWord text.toList with
      | none =>
          rw [hword] at h
          cases h
          rfl
      | some n =>
          rw [hword] at h
          cases h
  | float =>
      rw [untyped] at h
      cases hread : Double.read text.toList with
      | none =>
          rw [hread] at h
          cases h
          rfl
      | some d =>
          rw [hread] at h
          cases h
  | str =>
      cases h
      rfl
  | null | bool | seq | map => cases h

/-- A scalar that is read as a text is read as its own text. -/
theorem eq_value_of_scalarIn {shape : Shape} {tag : Tag} {text s : String}
    (h : scalarIn shape tag text = some (.str s)) : s = text := by
  cases shape with
  | any => exact eq_value_of_untyped h
  | string =>
      obtain ⟨-, h⟩ := Option.ite_none_left_eq_some.1 h
      cases h
      rfl
  | bool | int | uint | float =>
      obtain ⟨-, h⟩ := Option.ite_none_right_eq_some.1 h
      simp at h
  | sequence | map | struct => cases h

/-- A node that decodes to a text decodes to its own. -/
theorem eq_value_of_valueIn {r : Rose (Ref t)} {s : String} (h : valueIn target r = .str s) :
    s = r.label.value := by
  obtain ⟨r, below⟩ := r
  have hscalar : ∀ shape, (scalarIn shape r.tag r.value).getD .null = .str s → s = r.value := by
    intro shape hs
    cases hread : scalarIn shape r.tag r.value with
    | none =>
        rw [hread] at hs
        cases hs
    | some v =>
        rw [hread] at hs
        obtain rfl : v = .str s := hs
        exact eq_value_of_scalarIn hread
  unfold valueIn at h
  split at h
  · cases h
  · split at h
    · split at h <;> cases h
    · cases h
    · cases h
    · split at h
      · cases h
      · split at h
        · cases h
        · exact hscalar _ h
    · exact hscalar _ h

/-- A member is named by the text of its key, whatever the key decodes to. -/
theorem memberName_valueIn (k : Rose (Ref t)) :
    memberName k.label (valueIn key k) = k.label.value := by
  cases h : valueIn key k with
  | str s => exact eq_value_of_valueIn h
  | _ => rfl

theorem entryErrors_eq_nil : ∀ {below : List (Rose (Ref t))},
    entryErrors strict key value below = [] ↔
      ∀ e ∈ pairs below, errorsIn strict key e.1 = [] ∧ errorsIn strict value e.2 = []
  | k :: v :: rest => by
      rw [entryErrors, List.append_eq_nil_iff, entryErrors_eq_nil, pairs_cons_cons,
        List.forall_mem_cons]
      cases errorsIn strict key k <;> simp
  | [_] => by simp [entryErrors]
  | [] => by simp [entryErrors]

theorem entryValues_eq : ∀ below : List (Rose (Ref t)),
    entryValues key value below =
      (pairs below).map fun e => (e.1.label.value, valueIn value e.2)
  | k :: v :: rest => by
      rw [entryValues, memberName_valueIn, entryValues_eq rest, pairs_cons_cons, List.map_cons]
  | [_] => by simp [entryValues]
  | [] => by simp [entryValues]

/-! ### Fields -/

/-- The numbers of the fields that texts of keys bind, in order. -/
def Layout.boundIds (layout : Layout) (texts : List String) : List Nat :=
  texts.filterMap fun text => (layout.lookup text).map Slot.id

/-- The value behind a key of some text has no errors in the field that the key binds; if keys
must be known, the key binds one. -/
def Layout.Fits (strict : Bool) (layout : Layout) (text : String) (v : Rose (Ref t)) : Prop :=
  match layout.lookup text with
  | none => strict = false
  | some slot => errorsIn strict slot.target v = []

/-- No key has bound a field whose number is not among those bound. -/
theorem find?_binds_eq_none {earlier : List (Ref t)} {id : Nat} :
    earlier.find? (layout.binds id) = none ↔ id ∉ layout.boundIds (earlier.map Ref.value) := by
  rw [List.find?_eq_none, Layout.boundIds, List.mem_filterMap]
  simp [Layout.binds, Option.any_eq_false]

/-- The entries of a struct have no errors if each of them fits and no field is bound twice. -/
theorem fieldErrors_eq_nil : ∀ {below : List (Rose (Ref t))} {earlier : List (Ref t)},
    fieldErrors strict target layout earlier below = [] ↔
      (∀ e ∈ pairs below, layout.Fits strict e.1.label.value e.2) ∧
        (layout.boundIds ((Pass.keys below).map Ref.value)).Nodup ∧
          (layout.boundIds (earlier.map Ref.value)).Disjoint
            (layout.boundIds ((Pass.keys below).map Ref.value))
  | k :: v :: rest, earlier => by
      have hkeys : (Pass.keys (k :: v :: rest)).map Ref.value =
          k.label.value :: (Pass.keys rest).map Ref.value := by
        rw [Pass.keys, pairs_cons_cons]
        rfl
      rw [fieldErrors, List.append_eq_nil_iff, fieldErrors_eq_nil, pairs_cons_cons,
        List.forall_mem_cons, hkeys, List.map_append]
      cases hslot : layout.lookup k.label.value with
      | none =>
          have hfits : layout.Fits strict k.label.value v ↔ strict = false := by
            rw [Layout.Fits, hslot]
          have hids : layout.boundIds (k.label.value :: (Pass.keys rest).map Ref.value) =
              layout.boundIds ((Pass.keys rest).map Ref.value) := by
            simp [Layout.boundIds, hslot]
          have hearlier : layout.boundIds (earlier.map Ref.value ++ [k.label].map Ref.value) =
              layout.boundIds (earlier.map Ref.value) := by
            simp [Layout.boundIds, hslot]
          rw [hfits, hids, hearlier]
          cases strict <;> simp
      | some slot =>
          have hfits : layout.Fits strict k.label.value v ↔
              errorsIn strict slot.target v = [] := by
            rw [Layout.Fits, hslot]
          have hids : layout.boundIds (k.label.value :: (Pass.keys rest).map Ref.value) =
              slot.id :: layout.boundIds ((Pass.keys rest).map Ref.value) := by
            simp [Layout.boundIds, hslot]
          have hearlier : layout.boundIds (earlier.map Ref.value ++ [k.label].map Ref.value) =
              layout.boundIds (earlier.map Ref.value) ++ [slot.id] := by
            simp [Layout.boundIds, hslot]
          rw [hfits, hids, hearlier, List.nodup_cons, List.disjoint_append_left,
            List.disjoint_cons_left, List.disjoint_cons_right]
          cases hfind : earlier.find? (layout.binds slot.id) with
          | none =>
              have hfresh := find?_binds_eq_none.1 hfind
              simp only [hfind]
              simp [hfresh]
              tauto
          | some first =>
              have hbound : slot.id ∈ layout.boundIds (earlier.map Ref.value) := by
                by_contra hfresh
                rw [find?_binds_eq_none.2 hfresh] at hfind
                cases hfind
              simp [hfind, hbound]
  | [_], earlier => by simp [fieldErrors, Pass.keys, Layout.boundIds]
  | [], earlier => by simp [fieldErrors, Pass.keys, Layout.boundIds]

theorem fieldValues_eq : ∀ below : List (Rose (Ref t)),
    fieldValues layout below = (pairs below).filterMap fun e =>
      (layout.lookup e.1.label.value).map fun slot => (slot.key, valueIn slot.target e.2)
  | k :: v :: rest => by
      rw [fieldValues, fieldValues_eq rest, pairs_cons_cons, List.filterMap_cons]
      cases layout.lookup k.label.value <;> rfl
  | [_] => by simp [fieldValues]
  | [] => by simp [fieldValues]

/-! ### What hangs below a node -/

theorem Tree.Ref.label_view (r : Ref t) : r.view.label = r := by
  rw [view_eq]
  rfl

theorem Tree.Ref.entries_of_map {r : Ref t} (h : r.tag = .map) : r.entries = pairs r.children := by
  rw [entries, if_pos h]

/-- The entries of a mapping, each with what hangs below its key and its value. -/
theorem pairs_view {r : Ref t} (h : r.tag = .map) :
    pairs (r.children.map Ref.view) = r.entries.map (Prod.map Ref.view Ref.view) := by
  rw [pairs_map, r.entries_of_map h]

theorem keys_view {r : Ref t} (h : r.tag = .map) :
    (Pass.keys (r.children.map Ref.view)).map Ref.value = r.entries.map fun e => e.1.value := by
  rw [Pass.keys, pairs_view h, List.map_map, List.map_map]
  exact List.map_congr_left fun e _ => congrArg Ref.value e.1.label_view

theorem itemErrors_view (r : Ref t) :
    itemErrors strict element (r.children.map Ref.view) = [] ↔
      ∀ c ∈ r.children, errorsIn strict element c.view = [] := by
  rw [itemErrors_eq_nil, List.forall_mem_map]

theorem itemValues_view (r : Ref t) :
    itemValues element (r.children.map Ref.view) =
      r.children.map fun c => valueIn element c.view := by
  rw [itemValues_eq, List.map_map]
  rfl

/-- The entries of a mapping have no errors if its keys are all different and none of them and
of their values has any. -/
theorem entryErrors_view {r : Ref t} (h : r.tag = .map) :
    mappingErrors target (r.children.map Ref.view)
        (entryErrors strict key value (r.children.map Ref.view)) = [] ↔
      (r.entries.map fun e => e.1.value).Nodup ∧ ∀ e ∈ r.entries,
        errorsIn strict key e.1.view = [] ∧ errorsIn strict value e.2.view = [] := by
  rw [mappingErrors_eq_nil, keys_view h, entryErrors_eq_nil, pairs_view h, List.forall_mem_map]
  rfl

theorem entryValues_view {r : Ref t} (h : r.tag = .map) :
    entryValues key value (r.children.map Ref.view) =
      r.entries.map fun e => (e.1.value, valueIn value e.2.view) := by
  rw [entryValues_eq, pairs_view h, List.map_map]
  refine List.map_congr_left fun e _ => ?_
  exact congrArg (fun k : Ref t => (k.value, valueIn value e.2.view)) e.1.label_view

/-- The entries of a struct have no errors if its keys are all different, no field is bound twice
and each entry fits. -/
theorem fieldErrors_view {r : Ref t} (h : r.tag = .map) :
    mappingErrors target (r.children.map Ref.view)
        (fieldErrors strict target layout [] (r.children.map Ref.view)) = [] ↔
      (r.entries.map fun e => e.1.value).Nodup ∧
        (layout.boundIds (r.entries.map fun e => e.1.value)).Nodup ∧
          ∀ e ∈ r.entries, layout.Fits strict e.1.value e.2.view := by
  have hfits : (∀ e ∈ pairs (r.children.map Ref.view), layout.Fits strict e.1.label.value e.2) ↔
      ∀ e ∈ r.entries, layout.Fits strict e.1.value e.2.view := by
    rw [pairs_view h, List.forall_mem_map]
    refine forall₂_congr fun e _ => ?_
    rw [Prod.map_fst, Prod.map_snd, e.1.label_view]
  have hnone : (layout.boundIds (([] : List (Ref t)).map Ref.value)).Disjoint
      (layout.boundIds (r.entries.map fun e => e.1.value)) := List.disjoint_nil_left _
  rw [mappingErrors_eq_nil, fieldErrors_eq_nil, keys_view h, hfits]
  tauto

theorem fieldValues_view {r : Ref t} (h : r.tag = .map) :
    fieldValues layout (r.children.map Ref.view) = r.entries.filterMap fun e =>
      (layout.lookup e.1.value).map fun slot => (slot.key, valueIn slot.target e.2.view) := by
  rw [fieldValues_eq, pairs_view h, List.filterMap_map]
  refine congrArg (List.filterMap · r.entries) (funext fun e => ?_)
  exact congrArg (fun k : Ref t => (layout.lookup k.value).map fun slot =>
    (slot.key, valueIn slot.target e.2.view)) e.1.label_view

/-- If no field is bound twice then no two members have one name. -/
theorem nodup_fieldValues (howned : layout.Owned) {r : Ref t} (h : r.tag = .map)
    (hids : (layout.boundIds (r.entries.map fun e => e.1.value)).Nodup) :
    ((fieldValues layout (r.children.map Ref.view)).map Prod.fst).Nodup := by
  have hnames := howned.nodup_keys hids
  rw [List.filterMap_map] at hnames
  rw [fieldValues_view h, List.map_filterMap]
  simpa [Function.comp_def] using hnames

end YamlDecode
