/-
Trees that are built by hand.

Whoever adds the nodes one at a time may add each under any node that is there already: in any
order, under scalars as well as under collections, and without a parent as often as one likes.  The
tree then is what was asked for, and every node is kept three times over: with its parent, with its
place there, and in the list of its parent's children.

That the three agree is `Linked`.  What remains is that children stand in the order in which they
were added, which is again what one push keeps, and that a path is found, which goes up from parent
to parent and reads off at each of them what `Linked` says is there.
-/
import Mathlib.Data.List.Induction
import YamlDecode.Proofs.Tree.Links

namespace YamlDecode.Tree

variable {t : Tree}

/-- The tree of some nodes, added one after the other, each under a node of that number. -/
def ofPushes (pushes : List (Option Nat × Label)) : Tree :=
  pushes.foldl (fun t p => t.push p.1 p.2) empty

/-- Every parent is a node that was added before. -/
def ParentsFirst (pushes : List (Option Nat × Label)) : Prop :=
  ∀ (i p : Nat) (l : Label), pushes[i]? = some (some p, l) → p < i

theorem ofPushes_concat (pushes : List (Option Nat × Label)) (parent : Option Nat) (l : Label) :
    ofPushes (pushes ++ [(parent, l)]) = (ofPushes pushes).push parent l := by
  rw [ofPushes, List.foldl_append]
  rfl

theorem built_ofPushes (pushes : List (Option Nat × Label)) : (ofPushes pushes).Built := by
  induction pushes using List.reverseRecOn with
  | nil => exact .empty
  | append_singleton pushes p ih =>
      rw [ofPushes_concat]
      exact ih.push p.1 p.2

/-! ### Nodes are what was asked for -/

/-- The tree has a node for each push, under its number and with its parent and label. -/
structure Records (t : Tree) (pushes : List (Option Nat × Label)) : Prop where
  size : t.size = pushes.length
  entry : ∀ (i : Nat) (e : Entry), t.entries[i]? = some e → pushes[i]? = some (e.parent, e.label)

theorem Records.push {pushes : List (Option Nat × Label)} (h : Records t pushes)
    (parent : Option Nat) (l : Label) (hparent : ∀ p, parent = some p → p < t.size) :
    Records (t.push parent l) (pushes ++ [(parent, l)]) := by
  obtain ⟨hgrows, slot, hnew, -⟩ := grows_push t parent l hparent
  refine ⟨?_, ?_⟩
  · rw [size_push, h.size, List.length_append, List.length_singleton]
  · intro i e he
    rcases eq_size_or_old l he with rfl | ⟨old, hold⟩
    · rw [hnew] at he
      obtain rfl := Option.some.inj he
      rw [h.size, List.getElem?_concat_length]
    · have hentry := h.entry i old hold
      rw [hgrows.entry i old hold] at he
      obtain rfl := Option.some.inj he
      rw [List.getElem?_append_left (List.getElem?_eq_some_iff.1 hentry).1, hentry]
      split
      · rfl
      · rfl

theorem records_ofPushes {pushes : List (Option Nat × Label)} (h : ParentsFirst pushes) :
    Records (ofPushes pushes) pushes := by
  induction pushes using List.reverseRecOn with
  | nil =>
      refine ⟨rfl, ?_⟩
      intro i e he
      cases he
  | append_singleton pushes p ih =>
      have hfront : ParentsFirst pushes := by
        intro i q l hi
        refine h i q l ?_
        rw [List.getElem?_append_left (List.getElem?_eq_some_iff.1 hi).1, hi]
      have hrecords := ih hfront
      rw [ofPushes_concat]
      refine hrecords.push p.1 p.2 ?_
      intro q hq
      rw [hrecords.size]
      refine h pushes.length q p.2 ?_
      rw [List.getElem?_concat_length, ← hq]

theorem Ref.map_id_parent? (r : Ref t) : r.parent?.map Ref.id = r.entry.parent := by
  cases hp : r.parent? with
  | none => exact (Ref.parent?_eq_none.1 hp).symm
  | some p => exact (Ref.parent?_eq_some.1 hp).symm

/-! ### Children in order -/

/-- Children are listed in the order of their numbers. -/
def Increasing (t : Tree) : Prop :=
  ∀ (p : Nat) (e : Entry), t.entries[p]? = some e → e.children.toList.Pairwise (· < ·)

theorem lt_size_of_mem_children {p c : Nat} {e : Entry} (he : t.entries[p]? = some e)
    (hc : c ∈ e.children.toList) : c < t.size := by
  obtain ⟨hp, rfl⟩ := Array.getElem?_eq_some_iff.1 he
  exact ((t.fits p hp).lt_child c (Array.mem_toList_iff.1 hc)).2

theorem Increasing.push (h : t.Increasing) {parent : Option Nat} (l : Label)
    (hparent : ∀ p, parent = some p → p < t.size) : (t.push parent l).Increasing := by
  intro p e he
  obtain ⟨hgrows, slot, hnew, -⟩ := grows_push t parent l hparent
  rcases eq_size_or_old l he with rfl | ⟨old, hold⟩
  · rw [hnew] at he
    obtain rfl := Option.some.inj he
    exact List.Pairwise.nil
  · rw [hgrows.entry p old hold] at he
    obtain rfl := Option.some.inj he
    by_cases hp : parent = some p
    · rw [if_pos hp]
      show (old.children ++ [t.size].toArray).toList.Pairwise (· < ·)
      rw [Array.toList_append, List.pairwise_append]
      refine ⟨h p old hold, List.pairwise_singleton _ _, ?_⟩
      intro c hc d hd
      rw [List.mem_singleton.1 hd]
      exact lt_size_of_mem_children hold hc
    · rw [if_neg hp]
      exact h p old hold

theorem Built.increasing (h : t.Built) : t.Increasing := by
  refine h.induction ?_ fun t parent l hparent hincreasing => hincreasing.push l hparent
  intro p e he
  cases he

/-! ### Walking up -/

/-- The node so many steps above. -/
def Ref.ancestor? (r : Ref t) : Nat → Option (Ref t)
  | 0 => some r
  | n + 1 => r.parent?.bind fun p => p.ancestor? n

/-- The walk up from a node ends at one without a parent, in no more steps than the node's
number. -/
theorem Ref.exists_top (r : Ref t) :
    ∃ n ≤ r.id, ∃ top, r.ancestor? n = some top ∧ top.parent? = none := by
  induction hn : r.id using Nat.strongRecOn generalizing r with
  | ind n ih =>
      cases hp : r.parent? with
      | none => exact ⟨0, Nat.zero_le n, r, rfl, hp⟩
      | some p =>
          have hlt : p.id < n := hn ▸ Ref.parent?_lt hp
          obtain ⟨steps, hsteps, top, hup, htop⟩ := ih p.id hlt p rfl
          refine ⟨steps + 1, by omega, top, ?_, htop⟩
          rw [ancestor?, hp, Option.bind_some]
          exact hup

/-- Under a mapping there is a key at the even place of a pair. -/
theorem Linked.stepTo_map (h : t.Linked) {r p : Ref t} (hparent : r.parent? = some p)
    (hmap : p.tag = .map) :
    ∃ key, p.child? (r.slot - r.slot % 2) = some key ∧ p.stepTo r.slot = [.key key.value] := by
  have hself : p.children[r.slot]? = some r := by
    rw [Ref.getElem?_children]
    exact h.child?_iff.2 ⟨hparent, rfl⟩
  have hlt : r.slot - r.slot % 2 < p.children.length :=
    Nat.lt_of_le_of_lt (Nat.sub_le _ _) (List.getElem?_eq_some_iff.1 hself).1
  have hkey : p.child? (r.slot - r.slot % 2) = some p.children[r.slot - r.slot % 2] := by
    rw [← Ref.getElem?_children, List.getElem?_eq_getElem hlt]
  refine ⟨_, hkey, ?_⟩
  rw [Ref.stepTo, hmap, hkey]
  rfl

theorem Ref.stepTo_seq {p : Ref t} (hseq : p.tag = .seq) (slot : Nat) :
    p.stepTo slot = [.index slot] := by
  rw [stepTo, hseq]

theorem Ref.stepTo_scalar {p : Ref t} (hscalar : p.tag.isContainer = false) (slot : Nat) :
    p.stepTo slot = [] := by
  rw [stepTo]
  cases htag : p.tag with
  | seq | map =>
      rw [htag] at hscalar
      cases hscalar
  | null | bool | int | float | str => rfl

/-! ### Parents, places, children and paths -/

/-- What a tree that is built by hand can be relied on for. -/
structure Orderly (t : Tree) : Prop where
  parent_lt : ∀ {r p : Ref t}, r.parent? = some p → p.id < r.id
  /-- A node stands among the children of its parent, at its place, and nowhere else. -/
  listed : ∀ {r p q : Ref t} {i : Nat}, r.parent? = some p →
    (q.child? i = some r ↔ q = p ∧ i = r.slot)
  unlisted : ∀ {r : Ref t}, r.parent? = none → ∀ (q : Ref t) (i : Nat), q.child? i ≠ some r
  increasing : ∀ p : Ref t, (p.children.map Ref.id).Pairwise (· < ·)
  top : ∀ r : Ref t, ∃ n ≤ r.id, ∃ top, r.ancestor? n = some top ∧ top.parent? = none
  path_top : ∀ {r : Ref t}, r.parent? = none → r.path = []
  /-- Under a mapping a path goes on with the text of the child at the even place of the pair. -/
  path_map : ∀ {r p : Ref t}, r.parent? = some p → p.tag = .map →
    ∃ key, p.child? (r.slot - r.slot % 2) = some key ∧ r.path = p.path ++ [.key key.value]
  path_seq : ∀ {r p : Ref t}, r.parent? = some p → p.tag = .seq → r.path = p.path ++ [.index r.slot]
  path_scalar : ∀ {r p : Ref t}, r.parent? = some p → p.tag.isContainer = false → r.path = p.path

theorem Built.orderly (h : t.Built) : t.Orderly where
  parent_lt := Ref.parent?_lt
  listed := by
    intro r p q i hparent
    rw [h.linked.child?_iff, hparent, Option.some_inj]
    exact and_congr eq_comm eq_comm
  unlisted := by
    intro r hnone q i hchild
    cases hnone.symm.trans (h.linked.child?_iff.1 hchild).1
  increasing := by
    intro p
    rw [Ref.map_id_children]
    exact h.increasing p.id p.entry p.entry_eq
  top := Ref.exists_top
  path_top := Ref.path_of_root
  path_map := by
    intro r p hparent hmap
    obtain ⟨key, hkey, hstep⟩ := h.linked.stepTo_map hparent hmap
    exact ⟨key, hkey, by rw [Ref.path_of_child hparent, hstep]⟩
  path_seq := by
    intro r p hparent hseq
    rw [Ref.path_of_child hparent, Ref.stepTo_seq hseq]
  path_scalar := by
    intro r p hparent hscalar
    rw [Ref.path_of_child hparent, Ref.stepTo_scalar hscalar, List.append_nil]

end YamlDecode.Tree
