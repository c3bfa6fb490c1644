/-
Which structs can be laid out, and what is said of the others.

Laying out takes one step after another: it claims the keys of each field, and meets the fields that
are to be inlined and are no structs.  `steps` lists these steps, and no table is needed to tell
what becomes of them.  They are `Sound` if they claim keys only and none of them twice.  A step is
`Wrong` behind others if it breaks this rule, and the first one that does is the defect.

The table comes in through `Knows` alone: the keys that it finds are those that have been claimed.
Each claim keeps that, and so `Settled` goes from step to step, along the keys of a field and then
along the fields, until there are no steps left or one of them is wrong.
-/
import YamlDecode.Proofs.Target.Leaves

namespace YamlDecode.Layout

/-! ### Steps -/

/-- What is done, or cannot be done, to lay out a struct. -/
inductive Step where
  /-- A key is claimed. -/
  | claim (key : String)
  /-- A field that is no struct is to be inlined. -/
  | inline (field : String)

def Turn.steps : Turn → List Step
  | .leaf f => f.keys.map .claim
  | .stray key => [.inline key]

/-- The steps in which a struct is laid out, those of an inlined struct in the place of the field
that holds it. -/
def steps (fields : List Field) : List Step := (Field.turns fields).flatMap Turn.steps

/-- Keys are claimed, none of them twice, and that is all. -/
structure Sound (steps : List Step) : Prop where
  structs : ∀ field, .inline field ∉ steps
  distinct : steps.Nodup

/-- Behind other steps the step is a defect of a struct of that name. -/
inductive Wrong (typeName : String) (before : List Step) : Step → Defect → Prop
  | claimed {key : String} (h : .claim key ∈ before) :
      Wrong typeName before (.claim key) (.duplicatedKey key typeName)
  | noStruct {field : String} :
      Wrong typeName before (.inline field) (.inlineNotStruct field typeName)

/-- The first step that is wrong makes the defect. -/
def FirstDefect (typeName : String) (steps : List Step) (d : Defect) : Prop :=
  ∃ before step behind, steps = before ++ step :: behind ∧ Sound before ∧
    Wrong typeName before step d

section Steps

variable {typeName : String} {before steps : List Step} {step : Step} {d d' : Defect}

theorem sound_nil : Sound [] := ⟨fun _ => List.not_mem_nil, List.nodup_nil⟩

theorem Sound.claim (h : Sound before) {key : String} (hkey : .claim key ∉ before) :
    Sound (before ++ [.claim key]) where
  structs field hmem := by
    rcases List.mem_append.1 hmem with hmem | hmem
    · exact h.structs field hmem
    · simp at hmem
  distinct := by
    rw [List.nodup_append_comm, List.singleton_append, List.nodup_cons]
    exact ⟨hkey, h.distinct⟩

/-- Steps are not sound if one of them is wrong behind those in front of it. -/
theorem Wrong.not_sound (h : Wrong typeName before step d) (behind : List Step) :
    ¬Sound (before ++ step :: behind) := by
  intro hsound
  cases h with
  | claimed hmem =>
      have hdisjoint := (List.nodup_append.1 hsound.distinct).2.2
      exact hdisjoint _ hmem _ List.mem_cons_self rfl
  | @noStruct field => exact hsound.structs field (by simp)

theorem Wrong.unique (h : Wrong typeName before step d) (h' : Wrong typeName before step d') :
    d = d' := by
  cases h with
  | claimed => cases h'; rfl
  | noStruct => cases h'; rfl

theorem FirstDefect.not_sound (h : FirstDefect typeName steps d) : ¬Sound steps := by
  obtain ⟨before, step, behind, rfl, -, hwrong⟩ := h
  exact hwrong.not_sound behind

/-- Only one step is the first that is wrong. -/
theorem FirstDefect.unique (h : FirstDefect typeName steps d)
    (h' : FirstDefect typeName steps d') : d = d' := by
  obtain ⟨before, step, behind, rfl, hsound, hwrong⟩ := h
  obtain ⟨before', step', behind', heq, hsound', hwrong'⟩ := h'
  rcases List.append_eq_append_iff.1 heq with ⟨more, rfl, hmore⟩ | ⟨more, rfl, hmore⟩
  · cases more with
    | nil =>
        obtain ⟨rfl, -⟩ := List.cons.inj hmore
        rw [List.append_nil] at hwrong'
        exact hwrong.unique hwrong'
    | cons first more =>
        obtain ⟨rfl, -⟩ := List.cons.inj hmore
        exact absurd hsound' (hwrong.not_sound more)
  · cases more with
    | nil =>
        obtain ⟨rfl, -⟩ := List.cons.inj hmore
        rw [List.append_nil] at hwrong
        exact hwrong.unique hwrong'
    | cons first more =>
        obtain ⟨rfl, -⟩ := List.cons.inj hmore
        exact absurd hsound (hwrong'.not_sound more)

theorem FirstDefect.append (h : FirstDefect typeName steps d) (more : List Step) :
    FirstDefect typeName (steps ++ more) d := by
  obtain ⟨before, step, behind, rfl, hsound, hwrong⟩ := h
  exact ⟨before, step, behind ++ more, by simp, hsound, hwrong⟩

end Steps

/-! ### Tables -/

/-- The keys that are found are those that have been claimed. -/
def Knows (l : Layout) (steps : List Step) : Prop :=
  ∀ key, l.lookup key = none ↔ .claim key ∉ steps

theorem knows_empty : empty.Knows [] := by
  intro key
  simp [empty, lookup]

theorem Knows.claimed {l : Layout} {before : List Step} (h : l.Knows before) (key : String)
    (slot : Slot) :
    Knows { l with slots := (key, slot) :: l.slots } (before ++ [.claim key]) := by
  intro k
  have hk := h k
  rw [lookup] at hk ⊢
  rw [List.lookup_cons]
  by_cases heq : k = key
  · simp [heq]
  · have hne : (k == key) = false := by simpa using heq
    rw [hne]
    simp [heq, hk]

/-- What has come of steps: a layout that knows the keys, or the first defect. -/
inductive Settled (typeName : String) (steps : List Step) : Except Defect Layout → Prop
  | laidOut {l : Layout} (sound : Sound steps) (knows : l.Knows steps) :
      Settled typeName steps (.ok l)
  | defect {d : Defect} (first : FirstDefect typeName steps d) : Settled typeName steps (.error d)

section Settled

variable {typeName : String}

/-- The keys of one field. -/
theorem settled_claim {slot : Slot} {keys : List String} :
    ∀ {before : List Step} {l : Layout}, Sound before → l.Knows before →
      Settled typeName (before ++ keys.map .claim) (claim typeName slot l keys) := by
  induction keys with
  | nil =>
      intro before l hsound hknows
      rw [List.map_nil, List.append_nil]
      exact .laidOut hsound hknows
  | cons key keys ih =>
      intro before l hsound hknows
      rw [List.map_cons]
      unfold claim
      split
      · next hfound =>
        have hclaimed : .claim key ∈ before := by
          by_contra hfree
          rw [(hknows key).2 hfree] at hfound
          cases hfound
        exact .defect ⟨before, _, _, rfl, hsound, .claimed hclaimed⟩
      · next hfree =>
        have hrest := ih (hsound.claim ((hknows key).1 hfree)) (hknows.claimed key slot)
        rwa [List.append_assoc] at hrest

/-- One turn after the other. -/
theorem settled_foldlM {turns : List Turn} :
    ∀ {before : List Step} {l : Layout}, Sound before → l.Knows before →
      Settled typeName (before ++ turns.flatMap Turn.steps) (turns.foldlM (take typeName) l) := by
  induction turns with
  | nil =>
      intro before l hsound hknows
      rw [List.flatMap_nil, List.append_nil]
      exact .laidOut hsound hknows
  | cons turn turns ih =>
      intro before l hsound hknows
      rw [List.flatMap_cons, ← List.append_assoc, List.foldlM_cons]
      have htaken : Settled typeName (before ++ turn.steps) (take typeName l turn) := by
        cases turn with
        | leaf f => exact settled_claim hsound hknows
        | stray key => exact .defect ⟨before, _, [], rfl, hsound, .noStruct⟩
      generalize take typeName l turn = taken at htaken
      cases htaken with
      | laidOut sound knows => exact ih sound knows
      | defect first => exact .defect (first.append _)

end Settled

/--
**Struct layouts are exact.**

A struct can be laid out if and only if its steps are sound.  The layout then counts the leaves and
finds by a key the leaf that has it, and otherwise the first step that is wrong is the defect.
-/
theorem layout_exact (name : String) (fields : List Field) :
    ((∃ l, Target.layout ⟨name, .struct fields⟩ = .ok l) ↔ Sound (steps fields)) ∧
    (∀ l, Target.layout ⟨name, .struct fields⟩ = .ok l → l.Of (Field.leaves fields)) ∧
    ∀ d, Target.layout ⟨name, .struct fields⟩ = .error d ↔ FirstDefect name (steps fields) d := by
  have hsettled : Settled name (steps fields) (Target.layout ⟨name, .struct fields⟩) := by
    rw [layout_eq]
    exact settled_foldlM sound_nil knows_empty
  refine ⟨?_, fun l hl => of_layout hl, ?_⟩
  · generalize Target.layout ⟨name, .struct fields⟩ = outcome at hsettled
    cases hsettled with
    | @laidOut l sound => exact ⟨fun _ => sound, fun _ => ⟨l, rfl⟩⟩
    | defect first => exact ⟨nofun, fun sound => absurd sound first.not_sound⟩
  · intro d
    generalize Target.layout ⟨name, .struct fields⟩ = outcome at hsettled
    cases hsettled with
    | laidOut sound => exact ⟨nofun, fun first => absurd sound first.not_sound⟩
    | defect first =>
        constructor
        · intro hd
          exact Except.error.inj hd ▸ first
        · intro first'
          rw [first.unique first']

end YamlDecode.Layout
