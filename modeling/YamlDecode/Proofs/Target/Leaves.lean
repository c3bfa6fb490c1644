/-
A layout read as a list of fields.

A layout counts off the leaves of a struct, and finds by a key the leaf that has the key, as its
own or among its aliases: `Layout.Of` is this, with the number of a leaf as its place in the list.

It is an equivalence, and it has to be for the layout of a struct to be known by its leaves.  That
what is found is a leaf is kept by every claim.  That each leaf is found under all its keys is so
since a claim is only laid to a key that is free, so no later one hides it.
-/
import YamlDecode.Proofs.Target.Layout

namespace YamlDecode.Layout

/-- The layout finds by a key the field that has it, with its place in the list as its number. -/
structure Of (fields : List Field) (l : Layout) : Prop where
  count : l.fieldCount = fields.length
  lookup_iff : ∀ key slot, l.lookup key = some slot ↔
    ∃ f, fields[slot.id]? = some f ∧ key ∈ f.keys ∧ slot = ⟨slot.id, f.key, f.target⟩

theorem of_empty : empty.Of [] where
  count := rfl
  lookup_iff := by simp [empty, lookup]

variable {typeName : String}

/-- A claim that succeeds adds the keys that are claimed, and changes nothing else. -/
theorem claim_lookup {slot : Slot} : ∀ {keys : List String} {l l' : Layout},
    claim typeName slot l keys = .ok l' → l'.fieldCount = l.fieldCount ∧
      ∀ k s, l'.lookup k = some s ↔ l.lookup k = some s ∨ k ∈ keys ∧ s = slot
  | [], l, l', h => by
      unfold claim at h
      cases h
      simp
  | key :: keys, l, l', h => by
      unfold claim at h
      split at h
      · cases h
      · next hfree =>
        obtain ⟨hcount, hrest⟩ := claim_lookup h
        obtain ⟨hself, hkept⟩ := lookup_claimed slot hfree
        refine ⟨hcount, fun k s => ?_⟩
        rw [hrest, List.mem_cons]
        by_cases hk : k = key
        · subst hk
          rw [hself, hfree]
          simp [eq_comm]
        · have hother : lookup { l with slots := (key, slot) :: l.slots } k = l.lookup k := by
            rw [lookup, List.lookup_cons, beq_eq_false_iff_ne.2 hk]
            rfl
          rw [hother]
          simp [hk]

/-- What stands in a list with one more element at its end. -/
theorem getElem?_concat_eq_some {α : Type} {xs : List α} {x y : α} {i : Nat} :
    (xs ++ [x])[i]? = some y ↔ xs[i]? = some y ∨ i = xs.length ∧ x = y := by
  rcases Nat.lt_trichotomy i xs.length with hlt | rfl | hgt
  · rw [List.getElem?_append_left hlt]
    simp [Nat.ne_of_lt hlt]
  · simp
  · rw [List.getElem?_eq_none (by simpa using Nat.succ_le_of_lt hgt),
      List.getElem?_eq_none (Nat.le_of_lt hgt)]
    simp [Nat.ne_of_gt hgt]

theorem Of.addLeaf {before : List Field} {f : Field} {l l' : Layout} (hl : l.Of before)
    (h : claim typeName ⟨l.fieldCount, f.key, f.target⟩ { l with fieldCount := l.fieldCount + 1 }
      f.keys = .ok l') : l'.Of (before ++ [f]) := by
  obtain ⟨hcount, hlookup⟩ := claim_lookup h
  constructor
  · rw [hcount, hl.count, List.length_append, List.length_singleton]
  · intro k s
    rw [hlookup]
    show l.lookup k = some s ∨ _ ↔ _
    rw [hl.lookup_iff, hl.count]
    simp only [getElem?_concat_eq_some]
    constructor
    · rintro (⟨g, hg, hk, hs⟩ | ⟨hk, rfl⟩)
      · exact ⟨g, .inl hg, hk, hs⟩
      · exact ⟨f, .inr ⟨rfl, rfl⟩, hk, rfl⟩
    · rintro ⟨g, hg | ⟨hid, rfl⟩, hk, hs⟩
      · exact .inl ⟨g, hg, hk, hs⟩
      · rw [hid] at hs
        exact .inr ⟨hk, hs⟩

/-- **A layout finds the leaves of its struct, each under all its keys.** -/
theorem of_layout {target : Target} {layout : Layout} (h : target.layout = .ok layout) :
    layout.Of target.leaves :=
  layout_induction h of_empty fun _ _ _ _ => Of.addLeaf

namespace Of

variable {fields : List Field} {l : Layout} (h : l.Of fields)

include h

/-- A field is found under each of its keys. -/
theorem exists_lookup_eq {key : String} {f : Field} (hf : f ∈ fields) (hkey : key ∈ f.keys) :
    ∃ i, fields[i]? = some f ∧ l.lookup key = some ⟨i, f.key, f.target⟩ := by
  obtain ⟨i, hi⟩ := List.mem_iff_getElem?.1 hf
  exact ⟨i, hi, (h.lookup_iff key _).2 ⟨f, hi, hkey, rfl⟩⟩

/-- A key that no field has is not found. -/
theorem lookup_eq_none {key : String} : l.lookup key = none ↔ ∀ f ∈ fields, key ∉ f.keys := by
  constructor
  · intro hnone f hf hkey
    obtain ⟨i, -, hfound⟩ := h.exists_lookup_eq hf hkey
    cases hnone.symm.trans hfound
  · intro hall
    cases hlookup : l.lookup key with
    | none => rfl
    | some slot =>
        obtain ⟨f, hf, hkey, -⟩ := (h.lookup_iff key slot).1 hlookup
        exact absurd hkey (hall f (List.mem_of_getElem? hf))

/-- No key is of two fields. -/
theorem eq_of_mem_keys {key : String} {f g : Field} (hf : f ∈ fields) (hg : g ∈ fields)
    (hkey : key ∈ f.keys) (hkey' : key ∈ g.keys) : f = g := by
  obtain ⟨i, hi, hfound⟩ := h.exists_lookup_eq hf hkey
  obtain ⟨j, hj, hfound'⟩ := h.exists_lookup_eq hg hkey'
  obtain rfl : i = j := congrArg Slot.id (Option.some.inj (hfound.symm.trans hfound'))
  exact Option.some.inj (hi.symm.trans hj)

end Of

end YamlDecode.Layout
