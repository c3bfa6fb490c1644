/-
Links between nodes agree.

A node records its parent and its place there, and the parent records its children.
`Linked` says that the two records tell the same story: what stands at a place among a
node's children is exactly what names that node and that place.  A push keeps this, since
what it adds to the children of the parent is the new node, at the place it is given.

Only nodes that are added without a parent have none.  In the tree of a labelled tree that
is the first node, since all others are added below one.
-/
import YamlDecode.Proofs.Tree.Graft
import YamlDecode.Tree.Path

namespace YamlDecode.Tree

variable {t : Tree}

/-- A node is named as the child of a node at a place. -/
def NamedChild (t : Tree) (p i c : Nat) : Prop :=
  ∃ e : Entry, t.entries[c]? = some e ∧ e.parent = some p ∧ e.slot = i

/-- Parents, places and lists of children agree. -/
def Linked (t : Tree) : Prop :=
  ∀ (p : Nat) (e : Entry), t.entries[p]? = some e →
    ∀ i c, e.children[i]? = some c ↔ t.NamedChild p i c

/-- Nodes other than the first have parents. -/
def Rooted (t : Tree) : Prop :=
  ∀ (i : Nat) (e : Entry), t.entries[i]? = some e → e.parent = none → i = 0

theorem parent_lt {c p : Nat} {e : Entry} (he : t.entries[c]? = some e)
    (hp : e.parent = some p) : p < c := by
  obtain ⟨hc, rfl⟩ := Array.getElem?_eq_some_iff.1 he
  exact (t.fits c hc).parent_lt p hp

/-! ### Pushes -/

section Push

variable {parent : Option Nat} (l : Label)

/-- A node behind a push is the new one, or one from before it. -/
theorem eq_size_or_old {c : Nat} {e : Entry} (h : (t.push parent l).entries[c]? = some e) :
    c = t.size ∨ ∃ old, t.entries[c]? = some old := by
  have hlt := lt_of_entry h
  rw [size_push] at hlt
  rcases Nat.lt_succ_iff_lt_or_eq.1 hlt with hlt | hc
  · have hold : c < t.entries.size := hlt
    exact Or.inr ⟨t.entries[c], Array.getElem?_eq_getElem hold⟩
  · exact Or.inl hc

variable (hparent : ∀ p, parent = some p → p < t.size)

include hparent

/-- A push makes one more child, behind those that its parent has. -/
theorem namedChild_push {p i c : Nat} {e : Entry} (he : t.entries[p]? = some e) :
    (t.push parent l).NamedChild p i c ↔
      t.NamedChild p i c ∨ c = t.size ∧ parent = some p ∧ i = e.children.size := by
  obtain ⟨hgrows, slot, hnew, hslot⟩ := grows_push t parent l hparent
  constructor
  · rintro ⟨e', he', hp, hi⟩
    rcases eq_size_or_old l he' with rfl | ⟨old, hold⟩
    · rw [hnew] at he'
      obtain rfl := Option.some.inj he'
      exact Or.inr ⟨rfl, hp, hi ▸ hslot p e hp he⟩
    · rw [hgrows.entry c old hold] at he'
      obtain rfl := Option.some.inj he'
      refine Or.inl ⟨old, hold, ?_, ?_⟩
      · rw [← hp]
        split <;> rfl
      · rw [← hi]
        split <;> rfl
  · rintro (⟨old, hold, hp, hi⟩ | ⟨rfl, hp, rfl⟩)
    · refine ⟨_, hgrows.entry c old hold, ?_, ?_⟩
      · rw [← hp]
        split <;> rfl
      · rw [← hi]
        split <;> rfl
    · exact ⟨_, hnew, hp, hslot p e hp he⟩

theorem Linked.push (h : t.Linked) : (t.push parent l).Linked := by
  intro p e' he' i c
  obtain ⟨hgrows, slot, hnew, -⟩ := grows_push t parent l hparent
  rcases eq_size_or_old l he' with rfl | ⟨e, he⟩
  · -- The new node has no children, and no node names it as its parent.
    rw [hnew] at he'
    obtain rfl := Option.some.inj he'
    refine ⟨fun hc => by simp at hc, ?_⟩
    rintro ⟨e, he, hp, -⟩
    have hlt := parent_lt he hp
    have hsize := lt_of_entry he
    rw [size_push] at hsize
    omega
  · rw [namedChild_push l hparent he, ← h p e he]
    rw [hgrows.entry p e he] at he'
    obtain rfl := Option.some.inj he'
    by_cases hp : parent = some p
    · rw [if_pos hp, ← Array.push_eq_append, Array.getElem?_push]
      by_cases hi : i = e.children.size
      · subst hi
        simp [hp, eq_comm]
      · simp [hi]
    · rw [if_neg hp]
      simp [hp]

theorem Rooted.push (h : t.Rooted) (hroot : parent = none → t.size = 0) :
    (t.push parent l).Rooted := by
  intro i e he hnone
  obtain ⟨hgrows, slot, hnew, -⟩ := grows_push t parent l hparent
  rcases eq_size_or_old l he with rfl | ⟨old, hold⟩
  · rw [hnew] at he
    obtain rfl := Option.some.inj he
    exact hroot hnone
  · rw [hgrows.entry i old hold] at he
    obtain rfl := Option.some.inj he
    refine h i old hold ?_
    rw [← hnone]
    split <;> rfl

end Push

/-! ### Labelled trees -/

mutual

theorem graft_linked : ∀ (r : Rose Label) (t : Tree) (parent : Option Nat),
    (∀ p, parent = some p → p < t.size) → (parent = none → t.size = 0) → t.Linked ∧ t.Rooted →
      (t.graft parent r).Linked ∧ (t.graft parent r).Rooted
  | .node l cs, t, parent, hparent, hroot, h => by
      unfold graft
      exact graftAll_linked cs (t.push parent l) t.size (by simp)
        ⟨h.1.push l hparent, h.2.push l hparent hroot⟩

theorem graftAll_linked : ∀ (rs : List (Rose Label)) (t : Tree) (parent : Nat), parent < t.size →
    t.Linked ∧ t.Rooted → (t.graftAll parent rs).Linked ∧ (t.graftAll parent rs).Rooted
  | [], _, _, _, h => h
  | r :: rs, t, parent, hparent, h => by
      have hgrows := (graft_stands r t (some parent) (by simpa using hparent)).2.1
      unfold graftAll
      exact graftAll_linked rs (t.graft (some parent) r) parent
        (Nat.lt_of_lt_of_le hparent hgrows.size_le)
        (graft_linked r t (some parent) (by simpa using hparent) nofun h)

end

theorem linked_ofRose (R : Rose Label) : (ofRose R).Linked ∧ (ofRose R).Rooted := by
  refine graft_linked R empty none (by simp) (fun _ => rfl) ⟨?_, ?_⟩
  · intro p e he
    cases he
  · intro i e he
    cases he

/-! ### Trees built by hand -/

/-- The tree is built by adding nodes, one at a time. -/
inductive Built : Tree → Prop
  | empty : Built empty
  | push {t : Tree} (built : Built t) (parent : Option Nat) (l : Label) : Built (t.push parent l)

theorem push_of_le {p : Nat} (h : t.size ≤ p) (l : Label) :
    t.push (some p) l = t.push none l :=
  dif_neg (Nat.not_lt.2 h)

/-- A parent that is not in the tree may be left out of account. -/
theorem Built.induction {P : Tree → Prop} (h : t.Built) (empty : P Tree.empty)
    (push : ∀ (t : Tree) (parent : Option Nat) (l : Label),
      (∀ p, parent = some p → p < t.size) → P t → P (t.push parent l)) : P t := by
  induction h with
  | empty => exact empty
  | @push t built parent l ih =>
      cases parent with
      | none => exact push t none l nofun ih
      | some p =>
          by_cases hp : p < t.size
          · exact push t (some p) l (fun q hq => Option.some.inj hq ▸ hp) ih
          · rw [push_of_le (Nat.le_of_not_lt hp)]
            exact push t none l nofun ih

theorem Built.linked (h : t.Built) : t.Linked := by
  refine h.induction ?_ fun t parent l hparent hlinked => hlinked.push l hparent
  intro p e he
  cases he

mutual

theorem Built.graft {t : Tree} (h : t.Built) (parent : Option Nat) :
    ∀ r : Rose Label, (t.graft parent r).Built
  | .node l cs => by
      unfold Tree.graft
      exact (h.push parent l).graftAll t.size cs

theorem Built.graftAll {t : Tree} (h : t.Built) (parent : Nat) :
    ∀ rs : List (Rose Label), (t.graftAll parent rs).Built
  | [] => h
  | r :: rs => by
      unfold Tree.graftAll
      exact (h.graft (some parent) r).graftAll parent rs

end

theorem Ref.eq_of_id {r s : Ref t} (h : r.id = s.id) : r = s := by
  obtain ⟨i, hi⟩ := r
  obtain ⟨j, hj⟩ := s
  cases h
  rfl

theorem root?_eq_some {r : Ref t} : t.root? = some r ↔ r.id = 0 := by
  rw [root?, node?]
  split
  · rw [Option.some_inj]
    exact ⟨fun h => h ▸ rfl, fun h => Ref.eq_of_id h.symm⟩
  · next hempty =>
    refine ⟨fun hnone => absurd hnone.symm (Option.some_ne_none r), fun h => absurd r.inTree ?_⟩
    rwa [h]

theorem Ref.entry_eq (r : Ref t) : t.entries[r.id]? = some r.entry :=
  Array.getElem?_eq_getElem r.inTree

theorem Ref.parent?_eq_some {c p : Ref t} : c.parent? = some p ↔ c.entry.parent = some p.id := by
  unfold parent?
  split
  · next h => simp [h]
  · next q h =>
    constructor
    · intro hp
      rw [h, ← Option.some.inj hp]
    · intro hp
      exact congrArg some (eq_of_id (Option.some.inj (h.symm.trans hp)))

theorem Ref.parent?_eq_none {r : Ref t} : r.parent? = none ↔ r.entry.parent = none := by
  unfold parent?
  split
  · next h => simp [h]
  · next q h => simp [h]

theorem Ref.child?_eq_some {p c : Ref t} {i : Nat} :
    p.child? i = some c ↔ p.entry.children[i]? = some c.id := by
  unfold child?
  split
  · next hi =>
    rw [Array.getElem?_eq_getElem hi, Option.some_inj, Option.some_inj]
    exact ⟨fun hc => hc ▸ rfl, fun hc => eq_of_id hc⟩
  · next hi => simp [Array.getElem?_eq_none (Nat.le_of_not_lt hi)]

theorem Ref.getElem?_children (p : Ref t) (i : Nat) : p.children[i]? = p.child? i := by
  have hids : (p.children.map Ref.id)[i]? = p.entry.children[i]? := by
    rw [map_id_children, Array.getElem?_toList]
  rw [List.getElem?_map] at hids
  ext c
  rw [child?_eq_some, ← hids, Option.map_eq_some_iff]
  constructor
  · intro hc
    exact ⟨c, hc, rfl⟩
  · rintro ⟨d, hd, hdc⟩
    rw [hd, eq_of_id hdc]

theorem Ref.mem_children {p c : Ref t} : c ∈ p.children ↔ ∃ i, p.child? i = some c := by
  rw [List.mem_iff_getElem?]
  exact exists_congr fun i => by rw [getElem?_children]

theorem Ref.path_of_root {r : Ref t} (h : r.parent? = none) : r.path = [] := by
  rw [path]
  split
  · rfl
  · next p hp => cases h.symm.trans hp

theorem Ref.path_of_child {r p : Ref t} (h : r.parent? = some p) :
    r.path = p.path ++ p.stepTo r.slot := by
  rw [path]
  split
  · next hp => cases hp.symm.trans h
  · next q hq => rw [Option.some.inj (hq.symm.trans h)]

/-- A child at a place is what names that place as its own. -/
theorem Linked.child?_iff (h : t.Linked) {p c : Ref t} {i : Nat} :
    p.child? i = some c ↔ c.parent? = some p ∧ c.slot = i := by
  rw [Ref.child?_eq_some, Ref.parent?_eq_some, h p.id p.entry p.entry_eq, NamedChild, c.entry_eq]
  constructor
  · rintro ⟨e, ⟨⟩, hparent, hslot⟩
    exact ⟨hparent, hslot⟩
  · rintro ⟨hparent, hslot⟩
    exact ⟨c.entry, rfl, hparent, hslot⟩

theorem Linked.mem_children (h : t.Linked) {p c : Ref t} :
    c ∈ p.children ↔ c.parent? = some p := by
  rw [Ref.mem_children]
  constructor
  · rintro ⟨i, hi⟩
    exact (h.child?_iff.1 hi).1
  · intro hp
    exact ⟨c.slot, h.child?_iff.2 ⟨hp, rfl⟩⟩

theorem Rooted.parent?_eq_none (h : t.Rooted) {r : Ref t} : r.parent? = none ↔ r.id = 0 := by
  rw [Ref.parent?_eq_none]
  constructor
  · exact h r.id r.entry r.entry_eq
  · intro hid
    cases hp : r.entry.parent with
    | none => rfl
    | some p =>
        have hlt := parent_lt r.entry_eq hp
        omega

/-- What holds of the first node, and of each child of a node of which it holds, holds of all
nodes. -/
theorem Linked.induction (h : t.Linked) (hroot : t.Rooted) {P : Ref t → Prop}
    (first : ∀ r : Ref t, r.id = 0 → P r) (child : ∀ p c : Ref t, c ∈ p.children → P p → P c) :
    ∀ r : Ref t, P r := by
  intro r
  induction hn : r.id using Nat.strongRecOn generalizing r with
  | ind n ih =>
      cases hp : r.parent? with
      | none => exact first r (hroot.parent?_eq_none.1 hp)
      | some p =>
          have hlt : p.id < n := hn ▸ Ref.parent?_lt hp
          exact child p r (h.mem_children.2 hp) (ih p.id hlt p rfl)

/-- What holds of a node if it holds of its children holds of all nodes. -/
theorem Ref.children_induction {P : Ref t → Prop}
    (node : ∀ r : Ref t, (∀ c ∈ r.children, P c) → P r) (r : Ref t) : P r := by
  refine node r fun c hc => ?_
  have hlt := lt_of_mem_children hc
  have hsize := c.inTree
  exact children_induction node c
termination_by t.entries.size - r.id

end YamlDecode.Tree
