/-
Nodes in reading order.

In the tree of a labelled tree each node stands for the part of it that hangs there.  So
what is true at every node of the labelled tree is true of what each node of the tree has
below it, and what hangs below a node has the numbers that follow its own, without a gap.

Both are shown from the first node downwards, by `Linked.induction`.

That a listing has no node twice needs no labelled tree.  It is enough that parents and children
agree, for then there is one way up from a node, and it does not lead past two siblings.
-/
import Mathlib.Data.List.Nodup
import Mathlib.Logic.Relation
import YamlDecode.Proofs.Tree.Links

namespace YamlDecode.Tree

variable {t : Tree}

/-- The node hangs below another one: that one is its parent, or its parent's parent, and so
on. -/
def Ref.Below (s r : Ref t) : Prop :=
  Relation.TransGen (fun c p : Ref t => c.parent? = some p) s r

theorem Ref.mem_preorder_self (r : Ref t) : r ∈ r.view.preorder := by
  rw [view_eq]
  exact List.mem_cons_self

/-- A node says what it says, and so do the nodes below it. -/
theorem Ref.map_view (r : Ref t) :
    r.view.map label = .node r.label (r.children.map fun c => c.view.map label) := by
  rw [view_eq, Rose.map, Rose.mapAll_eq, List.map_map]
  rfl

/-- What is listed of a node is the node itself and what hangs below it. -/
theorem Linked.mem_preorder (h : t.Linked) {s : Ref t} (r : Ref t) :
    s ∈ r.view.preorder ↔ s = r ∨ s.Below r := by
  rw [Ref.view_eq, Rose.preorder, List.mem_cons, Rose.mem_preorderAll]
  refine or_congr_right ?_
  constructor
  · rintro ⟨v, hv, hs⟩
    obtain ⟨c, hc, rfl⟩ := List.mem_map.1 hv
    have hlt := Ref.lt_of_mem_children hc
    have hsize := c.inTree
    have hparent := h.mem_children.1 hc
    rcases (h.mem_preorder c).1 hs with rfl | hbelow
    · exact .single hparent
    · exact .tail hbelow hparent
  · intro hbelow
    rcases hbelow with hparent | ⟨hbelow, hparent⟩
    · exact ⟨s.view, List.mem_map_of_mem (h.mem_children.2 hparent), s.mem_preorder_self⟩
    · next c =>
      have hc := h.mem_children.2 hparent
      have hlt := Ref.lt_of_mem_children hc
      have hsize := c.inTree
      exact ⟨c.view, List.mem_map_of_mem hc, (h.mem_preorder c).2 (Or.inr hbelow)⟩
termination_by t.entries.size - r.id

theorem Ref.Below.lt {s r : Ref t} (h : s.Below r) : r.id < s.id := by
  induction h with
  | single hparent => exact parent?_lt hparent
  | tail _ hparent ih => exact Nat.lt_trans (parent?_lt hparent) ih

theorem Ref.not_below_of_root {r a : Ref t} (h : r.parent? = none) : ¬r.Below a := by
  intro hbelow
  obtain ⟨p, hparent, -⟩ := Relation.TransGen.head'_iff.1 hbelow
  cases h.symm.trans hparent

theorem Ref.below_iff {r p a : Ref t} (h : r.parent? = some p) : r.Below a ↔ a = p ∨ p.Below a := by
  rw [Ref.Below, Relation.TransGen.head'_iff]
  constructor
  · rintro ⟨q, hq, hbelow⟩
    obtain rfl := Option.some.inj (h.symm.trans hq)
    exact Relation.reflTransGen_iff_eq_or_transGen.1 hbelow
  · intro hbelow
    exact ⟨p, h, Relation.reflTransGen_iff_eq_or_transGen.2 hbelow⟩

/-- Children of one node do not hang below each other. -/
theorem Linked.not_below_sibling (h : t.Linked) {r c d : Ref t} (hc : c ∈ r.children)
    (hd : d ∈ r.children) : ¬d.Below c := by
  intro hbelow
  have hlt : r.id < c.id := Ref.lt_of_mem_children hc
  rcases (Ref.below_iff (h.mem_children.1 hd)).1 hbelow with rfl | habove
  · exact Nat.lt_irrefl _ hlt
  · exact Nat.lt_asymm hlt habove.lt

/-! ### No node twice -/

/-- The places of two children are different, and so they are. -/
theorem Linked.nodup_children (h : t.Linked) (p : Ref t) : p.children.Nodup := by
  rw [List.nodup_iff_getElem?_ne_getElem?]
  intro i j hij hj hsame
  rw [Ref.getElem?_children, Ref.getElem?_children] at hsame
  obtain ⟨c, hc⟩ : ∃ c, p.child? j = some c := by
    rw [← Ref.getElem?_children, List.getElem?_eq_getElem hj]
    exact ⟨_, rfl⟩
  have hi : c.slot = i := (h.child?_iff.1 (hsame.trans hc)).2
  have hj : c.slot = j := (h.child?_iff.1 hc).2
  omega

/-- No node hangs below two children of one node. -/
theorem Linked.eq_of_mem_preorder (h : t.Linked) {r c d s : Ref t} (hc : c ∈ r.children)
    (hd : d ∈ r.children) (hsc : s ∈ c.view.preorder) (hsd : s ∈ d.view.preorder) : c = d := by
  have hup : ∀ a : Ref t, s ∈ a.view.preorder →
      Relation.ReflTransGen (fun c p : Ref t => c.parent? = some p) s a := by
    intro a ha
    rw [Relation.reflTransGen_iff_eq_or_transGen, eq_comm]
    exact (h.mem_preorder a).1 ha
  -- Walking up, there is one way only.
  have hunique : Relator.RightUnique fun c p : Ref t => c.parent? = some p :=
    fun a p q hp hq => Option.some.inj (hp.symm.trans hq)
  rcases (hup c hsc).total_of_right_unique hunique (hup d hsd) with hcd | hdc
  · rcases Relation.reflTransGen_iff_eq_or_transGen.1 hcd with heq | hbelow
    · exact heq.symm
    · exact absurd hbelow (h.not_below_sibling hd hc)
  · rcases Relation.reflTransGen_iff_eq_or_transGen.1 hdc with heq | hbelow
    · exact heq
    · exact absurd hbelow (h.not_below_sibling hc hd)

theorem Linked.nodup_preorder (h : t.Linked) : ∀ r : Ref t, r.view.preorder.Nodup := by
  refine Ref.children_induction fun r ih => ?_
  rw [Ref.view_eq, Rose.preorder, List.nodup_cons]
  refine ⟨?_, ?_⟩
  · rw [Rose.mem_preorderAll]
    rintro ⟨v, hv, hr⟩
    obtain ⟨c, hc, rfl⟩ := List.mem_map.1 hv
    have hlt := Ref.lt_of_mem_children hc
    rcases (h.mem_preorder c).1 hr with rfl | hbelow
    · exact Nat.lt_irrefl _ hlt
    · exact Nat.lt_asymm hlt hbelow.lt
  · rw [Rose.preorderAll_eq, List.flatMap_map, List.nodup_flatMap]
    refine ⟨ih, (h.nodup_children r).imp_of_mem ?_⟩
    intro c d hc hd hne s hsc hsd
    exact hne (h.eq_of_mem_preorder hc hd hsc hsd)

/-! ### The tree of a labelled tree -/

theorem StandAll.of_mem_places {rs : List (Rose Label)} {i j : Nat} (h : StandAll t i rs)
    (hj : j ∈ places i rs) : ∃ r ∈ rs, Stands t j r := by
  induction rs generalizing i with
  | nil => cases hj
  | cons r rs ih =>
      rcases List.mem_cons.1 hj with rfl | hj
      · exact ⟨r, by simp, h.1⟩
      · obtain ⟨s, hs, hstands⟩ := ih h.2 hj
        exact ⟨s, by simp [hs], hstands⟩

/-- A child of a node at which a labelled tree stands has a child of that tree standing at it. -/
theorem Stands.child {R : Rose Label} {p c : Ref t} (h : Stands t p.id R) (hc : c ∈ p.children) :
    ∃ S ∈ R.children, Stands t c.id S := by
  cases R with
  | node l cs =>
      obtain ⟨e, he, -, hchildren, hcs⟩ := h
      rw [p.entry_eq] at he
      obtain rfl := Option.some.inj he
      refine hcs.of_mem_places ?_
      rw [← hchildren, ← Ref.map_id_children]
      exact List.mem_map_of_mem hc

/-- Each node of the tree of a labelled tree has a part of that tree standing at it. -/
theorem exists_stands {R : Rose Label} (r : Ref (ofRose R)) :
    ∃ S, Stands (ofRose R) r.id S ∧ ∀ P : Rose Label → Prop, R.Every P → S.Every P := by
  obtain ⟨hlinked, hrooted⟩ := linked_ofRose R
  revert r
  refine hlinked.induction hrooted ?_ ?_
  · intro first hid
    exact ⟨R, hid ▸ (stands_ofRose R).1, fun P h => h⟩
  · rintro p c hc ⟨S, hstands, hevery⟩
    obtain ⟨C, hmem, hchild⟩ := hstands.child hc
    exact ⟨C, hchild, fun P h => (hevery P h).children C hmem⟩

/-- What is true at every node of a labelled tree is true of each node of its tree, with what
hangs below it. -/
theorem every_view {R : Rose Label} {P : Rose Label → Prop} (h : R.Every P) (r : Ref (ofRose R)) :
    (r.view.map Ref.label).Every P := by
  obtain ⟨S, hstands, hevery⟩ := exists_stands r
  rw [(view_of_stands hstands).1]
  exact hevery P h

/-- What hangs below a node has the numbers right behind that of the node. -/
theorem below_ofRose {R : Rose Label} (r : Ref (ofRose R)) :
    ∃ n, r.view.preorder.map Ref.id = List.range' r.id (n + 1) ∧
      ∀ s : Ref (ofRose R), s.Below r ↔ r.id < s.id ∧ s.id ≤ r.id + n := by
  obtain ⟨S, hstands, -⟩ := exists_stands r
  obtain ⟨n, hn⟩ : ∃ n, S.size = n + 1 := ⟨S.size - 1, by have := S.size_pos; omega⟩
  have hids := (view_of_stands hstands).2
  rw [hn] at hids
  refine ⟨n, hids, ?_⟩
  intro s
  have hlisted : s ∈ r.view.preorder ↔ r.id ≤ s.id ∧ s.id < r.id + (n + 1) := by
    rw [← List.mem_range'_1, ← hids]
    refine ⟨List.mem_map_of_mem, fun hmem => ?_⟩
    obtain ⟨s', hs', hid⟩ := List.mem_map.1 hmem
    rwa [← Ref.eq_of_id hid]
  rw [(linked_ofRose R).1.mem_preorder] at hlisted
  constructor
  · intro hbelow
    have hlt := hbelow.lt
    have hrange := hlisted.1 (Or.inr hbelow)
    omega
  · rintro ⟨hlt, hle⟩
    rcases hlisted.2 (by omega) with rfl | hbelow
    · omega
    · exact hbelow

/-- Nodes are numbered in the order in which they are listed. -/
theorem label_ofRose {R : Rose Label} (r : Ref (ofRose R)) :
    R.preorder[r.id]? = some r.label := by
  obtain ⟨hstands, hsize⟩ := stands_ofRose R
  have hlt : r.id < R.size := hsize ▸ r.inTree
  have hpos : 0 < (ofRose R).entries.size := Nat.lt_of_le_of_lt (Nat.zero_le _) r.inTree
  obtain ⟨hlabels, hids⟩ := @view_of_stands _ R ⟨0, hpos⟩ hstands
  have hid : ((Ref.view ⟨0, hpos⟩).preorder.map Ref.id)[r.id]? = some r.id := by
    rw [hids]
    simp [hlt]
  obtain ⟨s, hs, hsame⟩ : ∃ s, (Ref.view ⟨0, hpos⟩).preorder[r.id]? = some s ∧ s.id = r.id := by
    rwa [List.getElem?_map, Option.map_eq_some_iff] at hid
  have hlisted : R.preorder = (Ref.view ⟨0, hpos⟩).preorder.map Ref.label := by
    rw [← Rose.preorder_map, hlabels]
  rw [hlisted, List.getElem?_map, hs, Ref.eq_of_id hsame]
  rfl

end YamlDecode.Tree
