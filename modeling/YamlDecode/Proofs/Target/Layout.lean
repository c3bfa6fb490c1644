/-
Laying out a struct, turn by turn.

Laying out goes down into the structs that are inlined.  But what it does down there is what it does
at the top, on one table and in one name, so the nesting is of no account: `turns` lists the fields
in the order in which each has its turn, and laying out is one loop along that list (`layout_eq`).
A turn is a leaf, whose keys are claimed, or a field that cannot be inlined.  So what the claims for
one field keep is true of a layout and of the leaves of its struct, which is `layout_induction`.

The first use of it is that fields are found under their own keys.  A field claims its key before
its aliases, and no key is claimed twice, so what a layout finds under a field's key is that field
and no other.  This is `Layout.Owned`, and every claim keeps it: a new claim is for a key that was
free, and so nothing that was found before is hidden by it.  It follows that the keys under which
values of a struct come out tell its fields apart.
-/
import Mathlib.Data.List.Nodup
import YamlDecode.Target.Layout

namespace YamlDecode

/-- The keys that bind a field in a document. -/
def Field.keys (f : Field) : List String := f.key :: f.aliases

mutual

/-- The fields of a struct that are bound by keys, those of an inlined struct in the place of the
field that holds it. -/
def Field.leaves : List Field → List Field
  | [] => []
  | f :: fields => f.ownLeaves ++ Field.leaves fields

def Field.ownLeaves : Field → List Field
  | ⟨key, target, aliases, inlined⟩ =>
    if inlined then target.leaves else [⟨key, target, aliases, inlined⟩]

def Target.leaves : Target → List Field
  | ⟨_, shape⟩ => shape.leaves

def Shape.leaves : Shape → List Field
  | .struct fields => Field.leaves fields
  | _ => []

end

/-! ### Turn by turn -/

/-- What has its turn when a struct is laid out. -/
inductive Layout.Turn where
  /-- A field that is bound by keys. -/
  | leaf (f : Field)
  /-- A field of that key is to be inlined, and is no struct. -/
  | stray (key : String)

def Layout.Turn.leaf? : Layout.Turn → Option Field
  | .leaf f => some f
  | .stray _ => none

mutual

/-- The fields of a struct and of those inlined there, each in its turn. -/
def Field.turns : List Field → List Layout.Turn
  | [] => []
  | f :: fields => f.ownTurns ++ Field.turns fields

def Field.ownTurns : Field → List Layout.Turn
  | ⟨key, target, aliases, inlined⟩ =>
    if inlined then target.turns key else [.leaf ⟨key, target, aliases, inlined⟩]

def Target.turns (key : String) : Target → List Layout.Turn
  | ⟨_, shape⟩ => shape.turns key

def Shape.turns (key : String) : Shape → List Layout.Turn
  | .struct fields => Field.turns fields
  | _ => [.stray key]

end

mutual

theorem Field.leaves_eq : ∀ fields : List Field,
    Field.leaves fields = (Field.turns fields).filterMap Layout.Turn.leaf?
  | [] => by rw [Field.leaves, Field.turns, List.filterMap_nil]
  | f :: fields => by
      rw [Field.leaves, Field.turns, List.filterMap_append, f.ownLeaves_eq, Field.leaves_eq fields]

theorem Field.ownLeaves_eq : ∀ f : Field,
    f.ownLeaves = f.ownTurns.filterMap Layout.Turn.leaf?
  | ⟨key, target, aliases, inlined⟩ => by
      rw [Field.ownLeaves, Field.ownTurns]
      cases inlined with
      | true => exact target.leaves_eq key
      | false => rfl

theorem Target.leaves_eq (key : String) : ∀ target : Target,
    target.leaves = (target.turns key).filterMap Layout.Turn.leaf?
  | ⟨_, shape⟩ => by
      rw [Target.leaves, Target.turns]
      exact shape.leaves_eq key

theorem Shape.leaves_eq (key : String) : ∀ shape : Shape,
    shape.leaves = (shape.turns key).filterMap Layout.Turn.leaf?
  | .struct fields => by
      rw [Shape.leaves, Shape.turns]
      exact Field.leaves_eq fields
  | .any | .bool | .int | .uint | .float | .string | .sequence _ | .map _ _ => by
      simp [Shape.leaves, Shape.turns, Layout.Turn.leaf?]

end

namespace Layout

/-- The layout behind one more turn. -/
def take (typeName : String) (l : Layout) : Turn → Except Defect Layout
  | .leaf f =>
    claim typeName ⟨l.fieldCount, f.key, f.target⟩ { l with fieldCount := l.fieldCount + 1 } f.keys
  | .stray key => .error (.inlineNotStruct key typeName)

section Take

variable (typeName : String)

mutual

theorem extend_eq : ∀ (fields : List Field) (l : Layout),
    extend typeName l fields = (Field.turns fields).foldlM (take typeName) l
  | [], l => by
      rw [extend, Field.turns]
      rfl
  | f :: fields, l => by
      rw [extend, Field.turns, List.foldlM_append, ← addField_eq f l]
      cases addField typeName l f with
      | error d => rfl
      | ok l' => exact extend_eq fields l'

theorem addField_eq : ∀ (f : Field) (l : Layout),
    addField typeName l f = f.ownTurns.foldlM (take typeName) l
  | ⟨key, target, aliases, inlined⟩, l => by
      rw [addField, Field.ownTurns]
      cases inlined with
      | true => exact inlineTarget_eq key target l
      | false => exact (bind_pure _).symm

theorem inlineTarget_eq (key : String) : ∀ (target : Target) (l : Layout),
    inlineTarget typeName key l target = (target.turns key).foldlM (take typeName) l
  | ⟨_, shape⟩, l => by
      rw [inlineTarget, Target.turns]
      exact inlineShape_eq key shape l

theorem inlineShape_eq (key : String) : ∀ (shape : Shape) (l : Layout),
    inlineShape typeName key l shape = (shape.turns key).foldlM (take typeName) l
  | .struct fields, l => by
      rw [inlineShape, Shape.turns]
      exact extend_eq fields l
  | .any, _ | .bool, _ | .int, _ | .uint, _ | .float, _ | .string, _ | .sequence _, _
  | .map _ _, _ => by
      simp only [inlineShape, Shape.turns]
      rfl

end

end Take

/-- A struct is laid out turn by turn. -/
theorem layout_eq (typeName : String) (fields : List Field) :
    Target.layout ⟨typeName, .struct fields⟩ =
      (Field.turns fields).foldlM (take typeName) Layout.empty :=
  extend_eq typeName fields Layout.empty

/-! ### Leaf by leaf -/

/-- What holds of layouts and of the fields laid out in them is kept by the claims for a field. -/
def Kept (typeName : String) (P : List Field → Layout → Prop) : Prop :=
  ∀ ⦃before : List Field⦄ ⦃f : Field⦄ ⦃l l' : Layout⦄, P before l →
    claim typeName ⟨l.fieldCount, f.key, f.target⟩ { l with fieldCount := l.fieldCount + 1 }
      f.keys = .ok l' → P (before ++ [f]) l'

theorem Kept.foldlM {typeName : String} {P : List Field → Layout → Prop}
    (hkept : Kept typeName P) {turns : List Turn} :
    ∀ {before : List Field} {l l' : Layout}, P before l →
      turns.foldlM (take typeName) l = .ok l' → P (before ++ turns.filterMap Turn.leaf?) l' := by
  induction turns with
  | nil =>
      intro before l l' hl h
      cases h
      rw [List.filterMap_nil, List.append_nil]
      exact hl
  | cons turn turns ih =>
      intro before l l' hl h
      rw [List.foldlM_cons] at h
      cases htake : take typeName l turn with
      | error d =>
          rw [htake] at h
          cases h
      | ok taken =>
          rw [htake] at h
          cases turn with
          | stray key => cases htake
          | leaf f =>
              have hrest := ih (hkept hl htake) h
              rwa [List.append_assoc] at hrest

/-- What the claims for a field keep is true of a layout and of the leaves laid out in it. -/
theorem layout_induction {P : List Field → Layout → Prop} {target : Target} {layout : Layout}
    (h : target.layout = .ok layout) (hempty : P [] empty) (hkept : Kept target.name P) :
    P target.leaves layout := by
  obtain ⟨name, shape⟩ := target
  cases shape with
  | struct fields =>
      rw [layout_eq] at h
      rw [Target.leaves, Shape.leaves, Field.leaves_eq]
      exact hkept.foldlM hempty h
  | any | bool | int | uint | float | string | sequence | map =>
      cases h
      exact hempty

/-! ### Fields under their own keys -/

/-- Each field is found under its own key. -/
def Owned (l : Layout) : Prop := ∀ p ∈ l.slots, l.lookup p.2.key = some p.2

theorem owned_empty : empty.Owned := nofun

/-- A field that claims a free key is found under it, and all others where they were. -/
theorem lookup_claimed {l : Layout} {key : String} (slot : Slot) (hfree : l.lookup key = none) :
    lookup { l with slots := (key, slot) :: l.slots } key = some slot ∧
      ∀ k s, l.lookup k = some s →
        lookup { l with slots := (key, slot) :: l.slots } k = some s := by
  constructor
  · rw [lookup, List.lookup_cons_self]
  · intro k s hs
    have hne : (k == key) = false := by
      rw [beq_eq_false_iff_ne]
      rintro rfl
      cases hfree.symm.trans hs
    rw [lookup, List.lookup_cons, hne]
    exact hs

theorem Owned.claimed {l : Layout} {key : String} {slot : Slot} (h : l.Owned)
    (hfree : l.lookup key = none) (hown : slot.key = key ∨ l.lookup slot.key = some slot) :
    Owned { l with slots := (key, slot) :: l.slots } := by
  obtain ⟨hself, hkept⟩ := lookup_claimed slot hfree
  intro p hp
  rcases List.mem_cons.1 hp with rfl | hp
  · rcases hown with rfl | hfound
    · exact hself
    · exact hkept _ _ hfound
  · exact hkept _ _ (h p hp)

/-- Aliases are claimed for a field that has claimed its key. -/
theorem claim_aliases_owned {typeName : String} {slot : Slot} :
    ∀ {aliases : List String} {l l' : Layout}, claim typeName slot l aliases = .ok l' →
      l.Owned → l.lookup slot.key = some slot → l'.Owned
  | [], l, l', h, howned, _ => by
      unfold claim at h
      cases h
      exact howned
  | key :: aliases, l, l', h, howned, hfound => by
      unfold claim at h
      split at h
      · cases h
      · next hfree =>
        exact claim_aliases_owned h (howned.claimed hfree (.inr hfound))
          ((lookup_claimed slot hfree).2 _ _ hfound)

/-- A field claims its own key first. -/
theorem claim_owned {typeName : String} {slot : Slot} {aliases : List String} {l l' : Layout}
    (h : claim typeName slot l (slot.key :: aliases) = .ok l') (howned : l.Owned) : l'.Owned := by
  unfold claim at h
  split at h
  · cases h
  · next hfree =>
    exact claim_aliases_owned h (howned.claimed hfree (.inl rfl)) (lookup_claimed slot hfree).1

theorem owned_layout {target : Target} {layout : Layout} (h : target.layout = .ok layout) :
    layout.Owned :=
  layout_induction (P := fun _ l => l.Owned) h owned_empty fun _ _ _ _ howned hclaim =>
    claim_owned hclaim howned

theorem mem_of_lookup {l : Layout} {key : String} {slot : Slot} (h : l.lookup key = some slot) :
    (key, slot) ∈ l.slots := by
  rw [lookup, List.lookup_eq_some_iff] at h
  obtain ⟨before, after, hslots, -⟩ := h
  rw [hslots]
  simp

/-- Fields that are found in a layout and have one key are one field. -/
theorem Owned.eq_of_key {layout : Layout} (h : layout.Owned) {k k' : String} {slot slot' : Slot}
    (hslot : layout.lookup k = some slot) (hslot' : layout.lookup k' = some slot')
    (hkey : slot.key = slot'.key) : slot = slot' := by
  have hfound : layout.lookup slot.key = some slot := h _ (mem_of_lookup hslot)
  have hfound' : layout.lookup slot'.key = some slot' := h _ (mem_of_lookup hslot')
  exact Option.some.inj (hfound.symm.trans (hkey ▸ hfound'))

/-- Keys that bind different fields bind them under different names. -/
theorem Owned.nodup_keys {layout : Layout} (h : layout.Owned) {texts : List String}
    (hids : (texts.filterMap fun text => (layout.lookup text).map Slot.id).Nodup) :
    (texts.filterMap fun text => (layout.lookup text).map Slot.key).Nodup := by
  rw [← List.map_filterMap] at hids ⊢
  refine List.Nodup.map_on ?_ (.of_map _ hids)
  intro slot hslot slot' hslot' hkey
  obtain ⟨text, -, hfound⟩ := List.mem_filterMap.1 hslot
  obtain ⟨text', -, hfound'⟩ := List.mem_filterMap.1 hslot'
  exact h.eq_of_key hfound hfound' hkey

end Layout

end YamlDecode
