/-
The texts of a target: the names of its types, the keys of its fields and their aliases.

A layout makes no texts.  The keys it binds and the targets of its fields have theirs from the
struct that was laid out, and so has a defect that is found instead.  `Outcome` says this of both
ways in which laying out may end, and every turn keeps it.
-/
import YamlDecode.Proofs.Target.Layout

namespace YamlDecode

/-! ### Texts -/

mutual

/-- The names of types, keys and aliases in a target. -/
def Target.texts : Target → List String
  | ⟨name, shape⟩ => name :: shape.texts

def Shape.texts : Shape → List String
  | .sequence element => element.texts
  | .map key value => key.texts ++ value.texts
  | .struct fields => Field.allTexts fields
  | _ => []

def Field.texts : Field → List String
  | ⟨key, target, aliases, _⟩ => (key :: aliases) ++ target.texts

def Field.allTexts : List Field → List String
  | [] => []
  | f :: fields => f.texts ++ Field.allTexts fields

end

/-- The texts that a defect names. -/
def Defect.texts : Defect → List String
  | .duplicatedKey text typeName | .inlineNotStruct text typeName => [text, typeName]

theorem Target.texts_eq (target : Target) : target.texts = target.name :: target.shape.texts := by
  cases target
  rw [texts]

theorem Target.name_mem_texts (target : Target) : target.name ∈ target.texts := by
  rw [texts_eq]
  exact List.mem_cons_self

/-- The texts of a shape are texts of every target that has it. -/
theorem Target.texts_of_shape {target : Target} {shape : Shape} (h : target.shape = shape) :
    shape.texts ⊆ target.texts := by
  rw [texts_eq, h]
  exact List.subset_cons_self target.name shape.texts

/-! ### Turns -/

/-- The texts of what has its turn. -/
def Layout.Turn.texts : Layout.Turn → List String
  | .leaf f => f.texts
  | .stray key => [key]

mutual

theorem Field.turns_texts : ∀ fields : List Field,
    (Field.turns fields).flatMap Layout.Turn.texts ⊆ Field.allTexts fields
  | [] => by
      rw [Field.turns]
      exact List.nil_subset _
  | f :: fields => by
      rw [Field.turns, Field.allTexts, List.flatMap_append, List.append_subset]
      exact ⟨List.subset_append_of_subset_left _ f.ownTurns_texts,
        List.subset_append_of_subset_right _ (Field.turns_texts fields)⟩

theorem Field.ownTurns_texts : ∀ f : Field, f.ownTurns.flatMap Layout.Turn.texts ⊆ f.texts
  | ⟨key, target, aliases, inlined⟩ => by
      rw [Field.ownTurns]
      cases inlined with
      | true =>
          have htarget := target.turns_texts key
          rw [Field.texts]
          intro text htext
          have := htarget htext
          simp only [List.mem_cons, List.mem_append] at this ⊢
          tauto
      | false => simp [Layout.Turn.texts]

theorem Target.turns_texts (key : String) : ∀ target : Target,
    (target.turns key).flatMap Layout.Turn.texts ⊆ key :: target.texts
  | ⟨name, shape⟩ => by
      rw [Target.turns, Target.texts]
      exact List.Subset.trans (shape.turns_texts key)
        (List.cons_subset_cons key (List.subset_cons_self name _))

theorem Shape.turns_texts (key : String) : ∀ shape : Shape,
    (shape.turns key).flatMap Layout.Turn.texts ⊆ key :: shape.texts
  | .struct fields => by
      rw [Shape.turns, Shape.texts]
      exact List.subset_cons_of_subset key (Field.turns_texts fields)
  | .any | .bool | .int | .uint | .float | .string | .sequence _ | .map _ _ => by
      simp [Shape.turns, Layout.Turn.texts]

end

/-! ### Layouts -/

/-- The keys that a layout binds, and the targets of their fields, have these texts. -/
def Layout.Within (texts : List String) (l : Layout) : Prop :=
  ∀ p ∈ l.slots, p.1 ∈ texts ∧ p.2.target.texts ⊆ texts

/-- What laying out gives, be it a layout or a defect, has these texts. -/
inductive Layout.Outcome (texts : List String) : Except Defect Layout → Prop
  | laidOut {l : Layout} (within : l.Within texts) : Outcome texts (.ok l)
  | defect {d : Defect} (named : d.texts ⊆ texts) : Outcome texts (.error d)

namespace Layout

variable {texts : List String} {typeName : String}

theorem within_empty : empty.Within texts := by
  intro p hp
  cases hp

theorem Within.claimed {l : Layout} (h : l.Within texts) {key : String} {slot : Slot}
    (hkey : key ∈ texts) (hslot : slot.target.texts ⊆ texts) :
    Within texts { l with slots := (key, slot) :: l.slots } := by
  intro p hp
  rcases List.mem_cons.1 hp with rfl | hp
  · exact ⟨hkey, hslot⟩
  · exact h p hp

/-- Keys are claimed for one field. -/
theorem outcome_claim (hname : typeName ∈ texts) {slot : Slot}
    (hslot : slot.target.texts ⊆ texts) :
    ∀ {keys : List String} {l : Layout}, keys ⊆ texts → l.Within texts →
      Outcome texts (claim typeName slot l keys)
  | [], l, _, hl => .laidOut hl
  | key :: keys, l, hkeys, hl => by
      obtain ⟨hkey, hkeys⟩ := List.cons_subset.1 hkeys
      unfold claim
      split
      · exact .defect (by simp [Defect.texts, hkey, hname])
      · exact outcome_claim hname hslot hkeys (hl.claimed hkey hslot)

theorem outcome_take (hname : typeName ∈ texts) {turn : Turn} {l : Layout}
    (hturn : turn.texts ⊆ texts) (hl : l.Within texts) :
    Outcome texts (take typeName l turn) := by
  cases turn with
  | leaf f =>
      obtain ⟨key, target, aliases, inlined⟩ := f
      rw [Turn.texts, Field.texts] at hturn
      obtain ⟨hkeys, htarget⟩ := List.append_subset.1 hturn
      exact outcome_claim hname htarget hkeys hl
  | stray key =>
      have hkey : key ∈ texts := hturn List.mem_cons_self
      exact .defect (by simp [Defect.texts, hkey, hname])

theorem outcome_foldlM (hname : typeName ∈ texts) {turns : List Turn} :
    ∀ {l : Layout}, turns.flatMap Turn.texts ⊆ texts → l.Within texts →
      Outcome texts (turns.foldlM (take typeName) l) := by
  induction turns with
  | nil =>
      intro l _ hl
      exact .laidOut hl
  | cons turn turns ih =>
      intro l htexts hl
      rw [List.flatMap_cons] at htexts
      obtain ⟨hturn, hturns⟩ := List.append_subset.1 htexts
      have htaken := outcome_take hname hturn hl
      rw [List.foldlM_cons]
      generalize take typeName l turn = taken at htaken
      cases htaken with
      | defect named => exact .defect named
      | laidOut within => exact ih hturns within

end Layout

/-- **A target is laid out with its own texts.** -/
theorem Target.outcome_layout (target : Target) : Layout.Outcome target.texts target.layout := by
  obtain ⟨name, shape⟩ := target
  cases shape with
  | struct fields =>
      have htexts : (Field.turns fields).flatMap Layout.Turn.texts ⊆
          (⟨name, .struct fields⟩ : Target).texts := by
        rw [Target.texts, Shape.texts]
        exact List.subset_cons_of_subset name (Field.turns_texts fields)
      rw [Layout.layout_eq]
      exact Layout.outcome_foldlM (Target.name_mem_texts _) htexts Layout.within_empty
  | any | bool | int | uint | float | string | sequence | map => exact .laidOut Layout.within_empty

/-- A key that binds a field is a text of the struct, and so are the texts of the field's target. -/
theorem Layout.texts_of_lookup {target : Target} {layout : Layout} {key : String} {slot : Slot}
    (hlayout : target.layout = .ok layout) (hslot : layout.lookup key = some slot) :
    key ∈ target.texts ∧ slot.target.texts ⊆ target.texts := by
  have houtcome := target.outcome_layout
  rw [hlayout] at houtcome
  cases houtcome with
  | laidOut within => exact within _ (mem_of_lookup hslot)

theorem Defect.texts_of_layout {target : Target} {d : Defect} (h : target.layout = .error d) :
    d.texts ⊆ target.texts := by
  have houtcome := target.outcome_layout
  rw [h] at houtcome
  cases houtcome with
  | defect named => exact named

end YamlDecode
