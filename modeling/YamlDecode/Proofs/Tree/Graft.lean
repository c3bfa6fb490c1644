/-
A labelled tree comes back from the tree of its nodes.

`ofRose` adds the nodes of a labelled tree one after the other, and each is recorded with
its parent and joins its parent's children.  What has been added stays as it is, but for
the parent under which something is being added: that one gets further children.  `Grows`
is this fact, and it holds of a single `push` and of everything made of pushes.

A labelled tree stands at a number if the nodes from there on are its nodes in reading
order: the node of that number has its label, and its children stand behind one another
right after it.  All that such a node stands on comes later, so it is kept by whatever is
added under an earlier node (`Stands.keep`), and a subtree that has been added goes on to
stand while its siblings are.  Read through `Ref.view`, a tree that stands is the labelled
tree itself, and its nodes are numbered without a gap.
-/
import YamlDecode.Proofs.Tree.Rose
import YamlDecode.Tree.Graft

namespace YamlDecode.Tree

/-- The numbers at which trees stand if they stand behind one another from `i` on. -/
def places {α : Type} (i : Nat) : List (Rose α) → List Nat
  | [] => []
  | r :: rs => i :: places (i + r.size) rs

mutual

/-- The nodes from the number `i` on are those of a labelled tree, in reading order. -/
def Stands (t : Tree) (i : Nat) : Rose Label → Prop
  | .node l cs => ∃ e, t.entries[i]? = some e ∧ e.label = l ∧
      e.children.toList = places (i + 1) cs ∧ StandAll t (i + 1) cs

def StandAll (t : Tree) (i : Nat) : List (Rose Label) → Prop
  | [] => True
  | r :: rs => Stands t i r ∧ StandAll t (i + r.size) rs

end

/-- The tree `t'` is `t` with more nodes, of which `ids` are new children of `parent`. -/
structure Grows (t t' : Tree) (parent : Option Nat) (ids : List Nat) : Prop where
  size_le : t.size ≤ t'.size
  entry : ∀ i e, t.entries[i]? = some e →
    t'.entries[i]? = some (if parent = some i then { e with children := e.children ++ ids.toArray }
      else e)

theorem Grows.refl (t : Tree) (parent : Option Nat) : Grows t t parent [] := by
  refine ⟨Nat.le_refl _, ?_⟩
  intro i e he
  rw [he]
  split <;> simp

theorem Grows.trans {t t' t'' : Tree} {parent : Option Nat} {ids ids' : List Nat}
    (h : Grows t t' parent ids) (h' : Grows t' t'' parent ids') :
    Grows t t'' parent (ids ++ ids') := by
  refine ⟨Nat.le_trans h.size_le h'.size_le, ?_⟩
  intro i e he
  rw [h'.entry i _ (h.entry i e he)]
  split <;> simp

/-- A node under which nothing is added stays as it is. -/
theorem Grows.kept {t t' : Tree} {parent : Option Nat} {ids : List Nat} {i : Nat} {e : Entry}
    (h : Grows t t' parent ids) (hi : parent ≠ some i) (he : t.entries[i]? = some e) :
    t'.entries[i]? = some e := by
  rw [h.entry i e he, if_neg hi]

theorem lt_of_entry {t : Tree} {i : Nat} {e : Entry} (h : t.entries[i]? = some e) : i < t.size :=
  (Array.getElem?_eq_some_iff.1 h).1

/-- A push adds one node, without children, at the end of its parent's children, and changes
nothing else. -/
theorem grows_push (t : Tree) (parent : Option Nat) (l : Label)
    (hparent : ∀ p, parent = some p → p < t.size) :
    Grows t (t.push parent l) parent [t.size] ∧
      ∃ slot, (t.push parent l).entries[t.size]? = some ⟨l, parent, slot, #[]⟩ ∧
        ∀ p e, parent = some p → t.entries[p]? = some e → slot = e.children.size := by
  cases parent with
  | none =>
      refine ⟨⟨by simp, ?_⟩, 0, ?_, nofun⟩
      · intro i e he
        show (t.entries.push _)[i]? = _
        have hi : i ≠ t.entries.size := Nat.ne_of_lt (lt_of_entry he)
        rw [Array.getElem?_push, if_neg hi, he]
        rfl
      · show (t.entries.push _)[t.entries.size]? = _
        rw [Array.getElem?_push, if_pos rfl]
  | some p =>
      have hp : p < t.entries.size := hparent p rfl
      have hpush : (t.push (some p) l).entries = (t.entries.modify p (·.addChild t.size)).push
          ⟨l, some p, t.entries[p].children.size, #[]⟩ := by
        rw [push, dif_pos hp]
        rfl
      refine ⟨⟨by simp, ?_⟩, t.entries[p].children.size, ?_, ?_⟩
      · intro i e he
        have hi : i ≠ (t.entries.modify p (·.addChild t.size)).size := by
          rw [Array.size_modify]
          exact Nat.ne_of_lt (lt_of_entry he)
        rw [hpush, Array.getElem?_push, if_neg hi, Array.getElem?_modify, he]
        by_cases hpi : p = i
        · rw [if_pos hpi, if_pos (by rw [hpi])]
          simp [Entry.addChild]
        · rw [if_neg hpi, if_neg (by simpa using hpi)]
      · rw [hpush, Array.getElem?_push, if_pos (by rw [Array.size_modify]; rfl)]
      · rintro q e ⟨⟩ he
        rw [Array.getElem?_eq_getElem hp] at he
        obtain rfl := Option.some.inj he
        rfl

/-! ### What has been added stays -/

mutual

theorem Stands.keep {t t' : Tree} : ∀ {r : Rose Label} {i : Nat},
    (∀ j e, i ≤ j → t.entries[j]? = some e → t'.entries[j]? = some e) →
      Stands t i r → Stands t' i r
  | .node l cs, i, hkeep, ⟨e, he, hl, hchildren, hcs⟩ =>
      ⟨e, hkeep i e (Nat.le_refl i) he, hl, hchildren,
        StandAll.keep (fun j e' hj => hkeep j e' (by omega)) hcs⟩

theorem StandAll.keep {t t' : Tree} : ∀ {rs : List (Rose Label)} {i : Nat},
    (∀ j e, i ≤ j → t.entries[j]? = some e → t'.entries[j]? = some e) →
      StandAll t i rs → StandAll t' i rs
  | [], _, _, _ => trivial
  | _ :: _, _, hkeep, ⟨hr, hrs⟩ =>
      ⟨Stands.keep hkeep hr, StandAll.keep (fun j e hj => hkeep j e (by omega)) hrs⟩

end

mutual

theorem graft_stands : ∀ (r : Rose Label) (t : Tree) (parent : Option Nat),
    (∀ p, parent = some p → p < t.size) →
      Stands (t.graft parent r) t.size r ∧ Grows t (t.graft parent r) parent [t.size] ∧
        (t.graft parent r).size = t.size + r.size
  | .node l cs, t, parent, hparent => by
      obtain ⟨hpush, slot, hnew, -⟩ := grows_push t parent l hparent
      obtain ⟨hall, hgrows, hsize⟩ := graftAll_stands cs (t.push parent l) t.size (by simp)
      rw [size_push] at hall hgrows hsize
      unfold graft
      refine ⟨⟨_, hgrows.entry _ _ hnew, ?_, ?_, hall⟩, ?_, ?_⟩
      · rw [if_pos rfl]
      · rw [if_pos rfl]
        simp
      · refine ⟨Nat.le_trans hpush.size_le hgrows.size_le, ?_⟩
        intro i e hi
        have hne : some t.size ≠ some i := by
          intro h
          exact Nat.ne_of_gt (lt_of_entry hi) (Option.some.inj h)
        exact hgrows.kept hne (hpush.entry i e hi)
      · show ((t.push parent l).graftAll t.size cs).size = _
        rw [hsize, Rose.size]
        omega

theorem graftAll_stands : ∀ (rs : List (Rose Label)) (t : Tree) (parent : Nat), parent < t.size →
    StandAll (t.graftAll parent rs) t.size rs ∧
      Grows t (t.graftAll parent rs) (some parent) (places t.size rs) ∧
        (t.graftAll parent rs).size = t.size + Rose.sizes rs
  | [], t, parent, _ => ⟨trivial, Grows.refl t _, rfl⟩
  | r :: rs, t, parent, hparent => by
      obtain ⟨hstands, hgrows, hsize⟩ := graft_stands r t (some parent) (by simpa using hparent)
      obtain ⟨hall, hgrows', hsize'⟩ := graftAll_stands rs (t.graft (some parent) r) parent
        (Nat.lt_of_lt_of_le hparent hgrows.size_le)
      rw [hsize] at hall hgrows' hsize'
      refine ⟨⟨hstands.keep ?_, hall⟩, hgrows.trans hgrows', ?_⟩
      · intro j e hj he
        refine hgrows'.kept ?_ he
        intro h
        have := Option.some.inj h
        omega
      · show ((t.graft (some parent) r).graftAll parent rs).size = _
        rw [hsize', Rose.sizes]
        omega

end

/-! ### Reading it back -/

theorem Ref.map_id_children {t : Tree} (r : Ref t) :
    r.children.map Ref.id = r.entry.children.toList := by
  rw [Ref.children, List.map_map]
  have h : (Ref.id ∘ fun c : { x // x ∈ r.entry.children } =>
      (⟨c.1, (r.fits.lt_child c.1 c.2).2⟩ : Ref t)) = Subtype.val := rfl
  rw [h, ← Array.toList_map, Array.attach_map_subtype_val]

mutual

/-- A node at which a labelled tree stands is that tree to look at, and what hangs below it is
numbered from it on, in reading order and without a gap. -/
theorem view_of_stands {t : Tree} : ∀ {R : Rose Label} {r : Ref t}, Stands t r.id R →
    r.view.map Ref.label = R ∧ r.view.preorder.map Ref.id = List.range' r.id R.size
  | .node l cs, r, ⟨e, he, hl, hchildren, hcs⟩ => by
      have hentry : r.entry = e := by
        rw [Array.getElem?_eq_getElem r.inTree] at he
        exact Option.some.inj he
      have hplaces : r.children.map Ref.id = places (r.id + 1) cs := by
        rw [Ref.map_id_children, hentry, hchildren]
      obtain ⟨hlabels, hids⟩ := viewAll_of_stands hplaces hcs
      rw [Ref.view_eq, Rose.map, Rose.preorder, List.map_cons, hlabels, hids, Rose.size,
        List.range'_succ]
      refine ⟨?_, rfl⟩
      rw [Ref.label, hentry, hl]

theorem viewAll_of_stands {t : Tree} : ∀ {Rs : List (Rose Label)} {rs : List (Ref t)} {i : Nat},
    rs.map Ref.id = places i Rs → StandAll t i Rs →
      Rose.mapAll Ref.label (rs.map Ref.view) = Rs ∧
        (Rose.preorderAll (rs.map Ref.view)).map Ref.id = List.range' i (Rose.sizes Rs)
  | [], [], _, _, _ => ⟨rfl, rfl⟩
  | R :: Rs, r :: rs, i, hids, ⟨hr, hrs⟩ => by
      obtain ⟨rfl, hids⟩ := List.cons.inj hids
      obtain ⟨hlabel, hid⟩ := view_of_stands hr
      obtain ⟨hlabels, hrest⟩ := viewAll_of_stands hids hrs
      rw [List.map_cons, Rose.mapAll, Rose.preorderAll, List.map_append, hlabel, hid, hlabels,
        hrest, Rose.sizes, List.range'_append_1]
      exact ⟨rfl, rfl⟩

end

theorem stands_ofRose (R : Rose Label) : Stands (ofRose R) 0 R ∧ (ofRose R).size = R.size := by
  obtain ⟨hstands, -, hsize⟩ := graft_stands R empty none (by simp)
  rw [size_empty, Nat.zero_add] at hsize
  exact ⟨hstands, hsize⟩

/-- **The tree of the nodes of a labelled tree is that labelled tree, seen from its root.** -/
theorem map_view_ofRose (R : Rose Label) :
    ∃ root, (ofRose R).root? = some root ∧ root.view.map Ref.label = R := by
  obtain ⟨hstands, hsize⟩ := stands_ofRose R
  have hpos : 0 < (ofRose R).entries.size := by
    have hnodes := R.size_pos
    rw [← hsize] at hnodes
    exact hnodes
  refine ⟨⟨0, hpos⟩, ?_, (view_of_stands hstands).1⟩
  rw [root?, node?, dif_pos hpos]

/-- Different labelled trees have different trees of nodes. -/
theorem ofRose_injective : Function.Injective ofRose := by
  intro R S h
  obtain ⟨root, hroot, hview⟩ := map_view_ofRose R
  have hother := map_view_ofRose S
  rw [← h] at hother
  obtain ⟨root', hroot', hview'⟩ := hother
  obtain rfl : root = root' := Option.some.inj (hroot.symm.trans hroot')
  exact hview.symm.trans hview'

end YamlDecode.Tree
