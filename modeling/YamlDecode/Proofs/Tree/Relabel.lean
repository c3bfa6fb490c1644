/-
Trees with other labels.

Nodes keep their numbers and their links, since these do not depend on what the labels say.
-/
import YamlDecode.Proofs.Tree.Rose
import YamlDecode.Tree.Graft

namespace YamlDecode.Tree

/-- The tree with other labels. -/
def relabel (f : Label → Label) (t : Tree) : Tree where
  entries := t.entries.map fun e => { e with label := f e.label }
  fits i h := by
    rw [Array.size_map] at h ⊢
    rw [Array.getElem_map]
    exact ⟨(t.fits i h).parent_lt, (t.fits i h).lt_child⟩

variable (f : Label → Label)

theorem eq_of_entries {t t' : Tree} (h : t.entries = t'.entries) : t = t' := by
  cases t
  cases t'
  cases h
  rfl

@[simp] theorem size_relabel (t : Tree) : (t.relabel f).size = t.size := Array.size_map ..

theorem relabel_push (t : Tree) (parent : Option Nat) (l : Label) :
    (t.push parent l).relabel f = (t.relabel f).push parent (f l) := by
  refine eq_of_entries ?_
  have hsize : (t.relabel f).entries.size = t.entries.size := t.size_relabel f
  unfold push
  split
  · exact Array.map_push ..
  · next p =>
    by_cases hp : p < t.entries.size
    · rw [dif_pos hp, dif_pos (hsize ▸ hp)]
      refine Array.ext (by simp [relabel]) fun i _ _ => ?_
      simp only [relabel, Array.getElem_map, Array.getElem_push, Array.size_map, Array.size_modify,
        Array.getElem_modify]
      split
      · split
        all_goals rfl
      · rfl
    · rw [dif_neg hp, dif_neg (hsize ▸ hp)]
      exact Array.map_push ..

mutual

theorem relabel_graft (r : Rose Label) (t : Tree) (parent : Option Nat) :
    (t.graft parent r).relabel f = (t.relabel f).graft parent (r.map f) := by
  cases r with
  | node l cs =>
      rw [graft, Rose.map, graft, relabel_graftAll cs, relabel_push, size_relabel]

theorem relabel_graftAll (rs : List (Rose Label)) (t : Tree) (parent : Nat) :
    (t.graftAll parent rs).relabel f = (t.relabel f).graftAll parent (Rose.mapAll f rs) := by
  cases rs with
  | nil => rfl
  | cons r rs => rw [graftAll, Rose.mapAll, graftAll, relabel_graftAll rs, relabel_graft r]

end

/-- The tree of a labelled tree with other labels. -/
theorem ofRose_map (r : Rose Label) : ofRose (r.map f) = (ofRose r).relabel f := by
  have hempty : empty.relabel f = empty := eq_of_entries Array.map_empty
  rw [ofRose, ofRose, relabel_graft, hempty]

end YamlDecode.Tree
