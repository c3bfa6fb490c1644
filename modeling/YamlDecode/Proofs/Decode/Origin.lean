/-
Where errors come from.

`NodeErrors` says once what the errors of a node can be: none, one of its own, those of its
repeated keys, or those of what hangs below it.  `Found` tells the single errors of a node apart.
From it every error has one of five origins, and `Origin` lists them with what the pass saw when it
recorded the error: a node that does not fit, a key without a field, a key that binds a field
again, a key that its mapping holds already, and a target that cannot be laid out.

So what is true of all errors is shown by cases on `Origin`, and no longer by recursion over the
tree.  The targets that errors name are parts of the one that was asked for, and `Part` keeps
track of that.
-/
import YamlDecode.Proofs.Decode.Listing
import YamlDecode.Proofs.Tree.Links

namespace YamlDecode

open YamlDecode.Tree

variable {t : Tree} {strict : Bool}

/-! ### Parts of targets -/

/-- What a pass decodes into the one target, it may have to decode into the other for. -/
inductive Target.Part (whole : Target) : Target → Prop
  | self : Part whole whole
  | element {target element : Target} (part : Part whole target)
      (shape : target.shape = .sequence element) : Part whole element
  | key {target key value : Target} (part : Part whole target)
      (shape : target.shape = .map key value) : Part whole key
  | value {target key value : Target} (part : Part whole target)
      (shape : target.shape = .map key value) : Part whole value
  | field {target : Target} {layout : Layout} {key : String} {slot : Slot}
      (part : Part whole target) (laidOut : target.layout = .ok layout)
      (binds : layout.lookup key = some slot) : Part whole slot.target

theorem Target.Part.trans {a b c : Target} (hab : a.Part b) (hbc : b.Part c) : a.Part c := by
  induction hbc with
  | self => exact hab
  | element _ shape ih => exact .element ih shape
  | key _ shape ih => exact .key ih shape
  | value _ shape ih => exact .value ih shape
  | field _ laidOut binds ih => exact .field ih laidOut binds

/-! ### Keys of a mapping -/

/-- The two nodes stand in a list in this order. -/
abbrev InFront (first later : Ref t) (nodes : List (Ref t)) : Prop :=
  [first, later].Sublist nodes

/-- The keys of a mapping, in order. -/
def Tree.Ref.keys (m : Ref t) : List (Ref t) := m.entries.map Prod.fst

/-- The key stands in the mapping already: a key in front of it has its text. -/
structure Tree.Ref.Repeats (m first key : Ref t) : Prop where
  order : InFront first key m.keys
  same : first.value = key.value

theorem Tree.Ref.keys_eq {m : Ref t} (h : m.tag = .map) :
    Pass.keys (m.children.map Ref.view) = m.keys := by
  rw [Pass.keys, pairs_view h, keys, List.map_map]
  exact List.map_congr_left fun e _ => e.1.label_view

theorem Tree.mem_of_mem_pairs {α : Type} {p : α × α} : ∀ {xs : List α}, p ∈ pairs xs →
    p.1 ∈ xs ∧ p.2 ∈ xs
  | x :: y :: rest, h => by
      rw [pairs_cons_cons] at h
      rcases List.mem_cons.1 h with rfl | h
      · simp
      · obtain ⟨hfirst, hsecond⟩ := mem_of_mem_pairs h
        simp [hfirst, hsecond]
  | [_], h => by cases h
  | [], h => by cases h

/-- The keys of a mapping and their values are among its children. -/
theorem Tree.Ref.exists_entry_of_view {m : Ref t} (h : m.tag = .map)
    {p : Rose (Ref t) × Rose (Ref t)} (hp : p ∈ pairs (m.children.map Ref.view)) :
    ∃ k ∈ m.keys, ∃ v, p = (k.view, v.view) ∧ k ∈ m.children ∧ v ∈ m.children := by
  rw [pairs_view h] at hp
  obtain ⟨e, he, rfl⟩ := List.mem_map.1 hp
  have hbelow := he
  rw [m.entries_of_map h] at hbelow
  exact ⟨e.1, List.mem_map_of_mem he, e.2, rfl, mem_of_mem_pairs hbelow⟩

/-! ### What the errors of a node are -/

/-- The errors of a node are of one of these kinds. -/
inductive NodeErrors (strict : Bool) (target : Target) (r : Ref t) :
    List (DecodeError t) → Prop
  | none : NodeErrors strict target r []
  | misfit : NodeErrors strict target r [misfit r target]
  | defect {d : Defect} (fails : target.layout = .error d) :
      NodeErrors strict target r [.ofDefect d]
  | items {element : Target} (part : target.Part element) :
      NodeErrors strict target r (itemErrors strict element (r.children.map Ref.view))
  | repeats (isMap : r.tag = .map) : NodeErrors strict target r (repeatErrors target r.keys)
  | entries {key value : Target} (isMap : r.tag = .map) (keyPart : target.Part key)
      (valuePart : target.Part value) :
      NodeErrors strict target r (entryErrors strict key value (r.children.map Ref.view))
  | fields {layout : Layout} (isMap : r.tag = .map) (laidOut : target.layout = .ok layout)
      (distinct : (r.keys.map Ref.value).Nodup) :
      NodeErrors strict target r (fieldErrors strict target layout [] (r.children.map Ref.view))

section NodeErrors

variable {target : Target} {r : Ref t} {es : List (DecodeError t)}

theorem NodeErrors.ofTag (tag : Tag) (h : r.tag = tag → NodeErrors strict target r es) :
    NodeErrors strict target r (if r.tag = tag then es else [YamlDecode.misfit r target]) := by
  by_cases htag : r.tag = tag
  · rw [if_pos htag]
    exact h htag
  · rw [if_neg htag]
    exact .misfit

/-- A mapping has the errors inside it only if its keys are all different. -/
theorem NodeErrors.ofMapping (hmap : r.tag = .map)
    (h : (r.keys.map Ref.value).Nodup → NodeErrors strict target r es) :
    NodeErrors strict target r (mappingErrors target (r.children.map Ref.view) es) := by
  rw [mappingErrors, Ref.keys_eq hmap]
  split
  · next hdistinct => exact h hdistinct
  · exact .repeats hmap

theorem NodeErrors.ofScalar (value : Option Json) :
    NodeErrors strict target r
      (if value.isSome then [] else [YamlDecode.misfit r target]) := by
  split
  · exact .none
  · exact .misfit

theorem nodeErrors (strict : Bool) (target : Target) (r : Ref t) :
    NodeErrors strict target r (errorsIn strict target r.view) := by
  rw [r.view_eq, errorsIn]
  by_cases hnull : r.tag = .null
  · rw [if_pos hnull]
    exact .none
  · rw [if_neg hnull]
    cases hshape : target.shape with
    | struct fields =>
        cases hlayout : target.layout with
        | error d => exact .defect hlayout
        | ok layout => exact .ofTag .map fun hmap => .ofMapping hmap (.fields hmap hlayout)
    | sequence element => exact .ofTag .seq fun _ => .items (.element .self hshape)
    | map key value =>
        refine .ofTag .map fun hmap => .ofMapping hmap fun _ => ?_
        exact .entries hmap (.key .self hshape) (.value .self hshape)
    | any =>
        by_cases hseq : r.tag = .seq
        · simp only [if_pos hseq]
          exact .items .self
        · simp only [if_neg hseq]
          by_cases hmap : r.tag = .map
          · rw [if_pos hmap]
            exact .ofMapping hmap fun _ => .entries hmap .self .self
          · rw [if_neg hmap]
            exact .ofScalar _
    | bool | int | uint | float | string => exact .ofScalar _

end NodeErrors

/-! ### Which errors a collection has -/

section Collections

variable {target element key value : Target} {layout : Layout} {e : DecodeError t}

theorem mem_itemErrors {below : List (Rose (Ref t))} (h : e ∈ itemErrors strict element below) :
    ∃ item ∈ below, e ∈ errorsIn strict element item := by
  induction below with
  | nil => cases h
  | cons item rest ih =>
      rw [itemErrors] at h
      rcases List.mem_append.1 h with h | h
      · exact ⟨item, by simp, h⟩
      · obtain ⟨item', hmem, he⟩ := ih h
        exact ⟨item', by simp [hmem], he⟩

theorem mem_entryErrors : ∀ {below : List (Rose (Ref t))},
    e ∈ entryErrors strict key value below →
      ∃ p ∈ pairs below, e ∈ errorsIn strict key p.1 ∨ e ∈ errorsIn strict value p.2
  | k :: v :: rest, h => by
      rw [entryErrors] at h
      rw [pairs_cons_cons]
      rcases List.mem_append.1 h with h | h
      · refine ⟨(k, v), by simp, ?_⟩
        split at h
        · exact Or.inr h
        · exact Or.inl h
      · obtain ⟨p, hp, he⟩ := mem_entryErrors h
        exact ⟨p, by simp [hp], he⟩
  | [_], h => by cases h
  | [], h => by cases h

theorem mem_repeatErrors {keys : List (Ref t)} (h : e ∈ repeatErrors target keys) :
    ∃ first later, InFront first later keys ∧ first.value = later.value ∧
      e = clash target first later := by
  induction keys with
  | nil => cases h
  | cons key rest ih =>
      rw [repeatErrors] at h
      rcases List.mem_append.1 h with h | h
      · obtain ⟨later, hlater, rfl⟩ := List.mem_map.1 h
        obtain ⟨hmem, hvalue⟩ := List.mem_filter.1 hlater
        refine ⟨key, later, ?_, (of_decide_eq_true hvalue).symm, rfl⟩
        exact (List.singleton_sublist.2 hmem).cons_cons key
      · obtain ⟨first, later, horder, hvalue, rfl⟩ := ih h
        exact ⟨first, later, horder.cons key, hvalue, rfl⟩

/-- An error of an entry of a struct is its key's, or its value's in the field that the key
binds; `earlier` are the keys in front of the entries. -/
theorem mem_fieldErrors : ∀ {below : List (Rose (Ref t))} {earlier : List (Ref t)},
    e ∈ fieldErrors strict target layout earlier below → ∃ p ∈ pairs below,
      (layout.lookup p.1.label.value = none ∧ e = unknownKey p.1.label target) ∨
        ∃ slot, layout.lookup p.1.label.value = some slot ∧
          (e ∈ errorsIn strict slot.target p.2 ∨
            ∃ first, InFront first p.1.label (earlier ++ Pass.keys below) ∧
              layout.binds slot.id first = true ∧ e = boundBefore p.1.label first target)
  | k :: v :: rest, earlier, h => by
      have hkeys : Pass.keys (k :: v :: rest) = k.label :: Pass.keys rest := by
        rw [Pass.keys, pairs_cons_cons]
        rfl
      rw [fieldErrors] at h
      rw [pairs_cons_cons, hkeys]
      rcases List.mem_append.1 h with h | h
      · refine ⟨(k, v), by simp, ?_⟩
        cases hslot : layout.lookup k.label.value with
        | none =>
            rw [hslot] at h
            refine Or.inl ⟨rfl, ?_⟩
            cases strict with
            | false => cases h
            | true => exact List.mem_singleton.1 h
        | some slot =>
            simp only [hslot] at h
            refine Or.inr ⟨slot, rfl, ?_⟩
            cases hfind : earlier.find? (layout.binds slot.id) with
            | none =>
                rw [hfind] at h
                exact Or.inl h
            | some first =>
                rw [hfind] at h
                refine Or.inr ⟨first, ?_, List.find?_some hfind, List.mem_singleton.1 h⟩
                exact (List.singleton_sublist.2 (List.mem_of_find?_eq_some hfind)).append
                  ((List.nil_sublist _).cons_cons k.label)
      · obtain ⟨p, hp, he⟩ := mem_fieldErrors h
        rw [List.append_assoc] at he
        exact ⟨p, by simp [hp], he⟩
  | [_], _, h => by cases h
  | [], _, h => by cases h

end Collections

/-! ### One node -/

/-- Where an error of a node arises: at the node itself, at one of its keys, or below a child. -/
inductive Found (strict : Bool) (target : Target) (r : Ref t) : DecodeError t → Prop
  | misfit : Found strict target r (misfit r target)
  | unknownKey {key : Ref t} {layout : Layout} (laidOut : target.layout = .ok layout)
      (isKey : key ∈ r.keys) (free : layout.lookup key.value = none) :
      Found strict target r (unknownKey key target)
  | boundBefore {first key : Ref t} {layout : Layout} {slot : Slot}
      (laidOut : target.layout = .ok layout) (distinct : (r.keys.map Ref.value).Nodup)
      (order : InFront first key r.keys) (slotOf : layout.lookup key.value = some slot)
      (binds : layout.binds slot.id first = true) :
      Found strict target r (boundBefore key first target)
  | clash {first key : Ref t} (repeated : r.Repeats first key) :
      Found strict target r (clash target first key)
  | defect {d : Defect} (fails : target.layout = .error d) : Found strict target r (.ofDefect d)
  | below {e : DecodeError t} {childTarget : Target} {c : Ref t}
      (part : target.Part childTarget) (child : c ∈ r.children)
      (found : e ∈ errorsIn strict childTarget c.view) : Found strict target r e

theorem found_of_mem {target : Target} {r : Ref t} :
    ∀ e ∈ errorsIn strict target r.view, Found strict target r e := by
  intro e he
  have hnode := nodeErrors strict target r
  generalize errorsIn strict target r.view = es at hnode he
  cases hnode with
  | none => cases he
  | misfit =>
      obtain rfl := List.mem_singleton.1 he
      exact .misfit
  | defect fails =>
      obtain rfl := List.mem_singleton.1 he
      exact .defect fails
  | items part =>
      obtain ⟨item, hitem, he⟩ := mem_itemErrors he
      obtain ⟨c, hc, rfl⟩ := List.mem_map.1 hitem
      exact .below part hc he
  | repeats =>
      obtain ⟨first, later, horder, hvalue, rfl⟩ := mem_repeatErrors he
      exact .clash ⟨horder, hvalue⟩
  | entries hmap keyPart valuePart =>
      obtain ⟨p, hp, he⟩ := mem_entryErrors he
      obtain ⟨k, -, v, rfl, hk, hv⟩ := Ref.exists_entry_of_view hmap hp
      rcases he with he | he
      · exact .below keyPart hk he
      · exact .below valuePart hv he
  | fields hmap laidOut distinct =>
      obtain ⟨p, hp, he⟩ := mem_fieldErrors he
      obtain ⟨k, hkey, v, rfl, -, hv⟩ := Ref.exists_entry_of_view hmap hp
      rw [List.nil_append, Ref.keys_eq hmap] at he
      simp only [k.label_view] at he
      rcases he with ⟨hfree, rfl⟩ | ⟨slot, hslot, he | ⟨first, horder, hbinds, rfl⟩⟩
      · exact .unknownKey laidOut hkey hfree
      · exact .below (.field .self laidOut hslot) hv he
      · exact .boundBefore laidOut distinct horder hslot hbinds

/-! ### Origins -/

/-- Where an error of a pass into the target `whole` comes from. -/
inductive Origin (whole : Target) : DecodeError t → Prop
  /-- A node does not fit a target. -/
  | misfit {r : Ref t} {target : Target} (part : whole.Part target) :
      Origin whole (misfit r target)
  /-- A key of a mapping binds no field. -/
  | unknownKey {m key : Ref t} {target : Target} {layout : Layout} (part : whole.Part target)
      (laidOut : target.layout = .ok layout) (isKey : key ∈ m.keys)
      (free : layout.lookup key.value = none) : Origin whole (unknownKey key target)
  /-- The keys of a mapping are all different, and two of them bind one field. -/
  | boundBefore {m first key : Ref t} {target : Target} {layout : Layout} {slot : Slot}
      (part : whole.Part target) (laidOut : target.layout = .ok layout)
      (distinct : (m.keys.map Ref.value).Nodup) (order : InFront first key m.keys)
      (slotOf : layout.lookup key.value = some slot) (binds : layout.binds slot.id first = true) :
      Origin whole (boundBefore key first target)
  /-- Two keys of a mapping have one text. -/
  | clash {m first key : Ref t} {target : Target} (part : whole.Part target)
      (repeated : m.Repeats first key) : Origin whole (clash target first key)
  /-- A target cannot be laid out. -/
  | defect {target : Target} {d : Defect} (part : whole.Part target)
      (fails : target.layout = .error d) : Origin whole (.ofDefect d)

theorem Origin.of_part {whole target : Target} {e : DecodeError t} (h : Origin target e)
    (hpart : whole.Part target) : Origin whole e := by
  cases h with
  | misfit part => exact .misfit (hpart.trans part)
  | unknownKey part laidOut isKey free => exact .unknownKey (hpart.trans part) laidOut isKey free
  | boundBefore part laidOut distinct order slotOf binds =>
      exact .boundBefore (hpart.trans part) laidOut distinct order slotOf binds
  | clash part repeated => exact .clash (hpart.trans part) repeated
  | defect part fails => exact .defect (hpart.trans part) fails

/-- **Every error of a node has an origin.** -/
theorem origin_of_mem : ∀ (r : Ref t) (target : Target),
    ∀ e ∈ errorsIn strict target r.view, Origin target e := by
  refine Ref.children_induction fun r ih target e he => ?_
  cases found_of_mem e he with
  | misfit => exact .misfit .self
  | unknownKey laidOut isKey free => exact .unknownKey .self laidOut isKey free
  | boundBefore laidOut distinct order slotOf binds =>
      exact .boundBefore .self laidOut distinct order slotOf binds
  | clash repeated => exact .clash .self repeated
  | defect fails => exact .defect .self fails
  | below part child found => exact (ih _ child _ e found).of_part part

/-! ### Errors that come out -/

theorem upToFirst_sublist {α : Type} {stop : α → Bool} (xs : List α) :
    (upToFirst stop xs).Sublist xs := by
  induction xs with
  | nil => exact List.nil_sublist []
  | cons x xs ih =>
      rw [upToFirst]
      split
      · exact (List.nil_sublist xs).cons_cons x
      · exact ih.cons_cons x

section Decode

variable {options : Options} {target : Target} {es : List (DecodeError t)}

/-- If there are errors they come out, up to the first one that ends a pass. -/
theorem decode_eq_error :
    decode options t target = .error es ↔ t.errors options.knownFields target ≠ [] ∧
      upToFirst (Pass.stops options) (t.errors options.knownFields target) = es := by
  rw [decode_eq, Ne, ← List.isEmpty_iff]
  split
  · next hempty => simp [hempty]
  · next hempty => simp [hempty]

/-- Every error that comes out has an origin. -/
theorem origin_of_decode (h : decode options t target = .error es) :
    ∀ e ∈ es, Origin target e := by
  intro e he
  rw [← (decode_eq_error.1 h).2] at he
  have hmem := (upToFirst_sublist _).subset he
  rw [errors] at hmem
  cases hroot : t.root? with
  | none =>
      rw [hroot] at hmem
      cases hmem
  | some root =>
      rw [hroot] at hmem
      exact origin_of_mem root target e hmem

end Decode

end YamlDecode
