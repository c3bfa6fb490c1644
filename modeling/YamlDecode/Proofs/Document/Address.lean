/-
Paths are addresses.

A path is found by walking up from a node; `follow?` walks down from the root, from a key to its
value and from an index to the child there.  In the tree of a document the two walks undo each
other, provided that no mapping holds two keys of one text: each step down finds the child from
which the step up came, or the value if that child is a key.

So all that a path forgets is whether a key or its value was meant, and two nodes share a path
only if they are these two.
-/
import Mathlib
import YamlDecode.Proofs.Decode.Repeats
import YamlDecode.Proofs.Document.Formed

namespace YamlDecode

namespace Tree

variable {t : Tree}

/-! ### Walking down -/

/-- The node that a step leads to: the value of a key, or the child at an index. -/
def Ref.step? (r : Ref t) : Segment → Option (Ref t)
  | .key text => (r.entries.find? fun entry => entry.1.value = text).map (·.2)
  | .index i => r.child? i

/-- The node that a path leads to. -/
def Ref.follow? (r : Ref t) : Path → Option (Ref t)
  | [] => some r
  | s :: rest => (r.step? s).bind fun c => c.follow? rest

/-- No mapping holds two keys of one text. -/
def DistinctKeys (t : Tree) : Prop :=
  ∀ m : Ref t, (m.entries.map fun entry => entry.1.value).Nodup

theorem Ref.follow?_concat (r : Ref t) (path : Path) (s : Segment) :
    r.follow? (path ++ [s]) = (r.follow? path).bind fun p => p.step? s := by
  induction path generalizing r with
  | nil =>
      show (r.step? s).bind some = r.step? s
      exact Option.bind_fun_some _
  | cons first rest ih =>
      rw [List.cons_append, follow?, follow?, Option.bind_assoc]
      exact congrArg _ (funext fun c => ih c)

/-! ### Entries -/

theorem getElem?_pairs {α : Type} : ∀ {xs : List α} {i : Nat} {x y : α},
    (pairs xs)[i]? = some (x, y) ↔ xs[2 * i]? = some x ∧ xs[2 * i + 1]? = some y
  | [], i, x, y => by simp
  | [a], i, x, y => by
      rw [pairs_singleton]
      constructor
      · intro h
        cases h
      · rintro ⟨-, h⟩
        simp at h
  | a :: b :: rest, 0, x, y => by
      rw [pairs_cons_cons]
      simp
  | a :: b :: rest, i + 1, x, y => by
      rw [pairs_cons_cons, List.getElem?_cons_succ, getElem?_pairs]
      rfl

theorem Ref.mem_entries {m key value : Ref t} :
    (key, value) ∈ m.entries ↔
      m.tag = .map ∧ ∃ i, m.child? (2 * i) = some key ∧ m.child? (2 * i + 1) = some value := by
  rw [entries]
  split
  · next hmap =>
    rw [List.mem_iff_getElem?]
    simp only [getElem?_pairs, getElem?_children, hmap, true_and]
  · next hmap => simp [hmap]

/-- A key finds its own entry if no other key has its text. -/
theorem find?_of_nodup {α β : Type} [DecidableEq β] {f : α → β} : ∀ {xs : List α} {x : α},
    (xs.map f).Nodup → x ∈ xs → (xs.find? fun y => f y = f x) = some x
  | y :: xs, x, hnodup, hmem => by
      rw [List.map_cons, List.nodup_cons] at hnodup
      rcases List.mem_cons.1 hmem with rfl | hmem
      · simp
      · have hne : f y ≠ f x := fun h => hnodup.1 (h ▸ List.mem_map_of_mem hmem)
        rw [List.find?_cons_of_neg (by simpa using hne)]
        exact find?_of_nodup hnodup.2 hmem

theorem Ref.step?_key {m key value : Ref t} (hdistinct : t.DistinctKeys)
    (h : (key, value) ∈ m.entries) : m.step? (.key key.value) = some value := by
  rw [step?, find?_of_nodup (hdistinct m) h]
  rfl

/-! ### Ancestors -/

theorem finite_ref (t : Tree) : Finite (Ref t) :=
  Finite.of_injective (fun r : Ref t => (⟨r.id, r.inTree⟩ : Fin t.entries.size))
    fun _ _ h => Ref.eq_of_id (congrArg Fin.val h)

theorem Ref.ncard_below_of_root {r : Ref t} (h : r.parent? = none) :
    {a | r.Below a}.ncard = 0 := by
  have hset : {a | r.Below a} = ∅ :=
    Set.eq_empty_of_forall_notMem fun a => Ref.not_below_of_root h
  rw [hset, Set.ncard_empty]

theorem Ref.ncard_below_of_child {r p : Ref t} (h : r.parent? = some p) :
    {a | r.Below a}.ncard = {a | p.Below a}.ncard + 1 := by
  have hfinite := finite_ref t
  have hset : {a | r.Below a} = insert p {a | p.Below a} := Set.ext fun a => Ref.below_iff h
  have hself : p ∉ {a | p.Below a} := fun hbelow => Nat.lt_irrefl _ (Ref.Below.lt hbelow)
  rw [hset, Set.ncard_insert_of_notMem hself (Set.toFinite _)]

/-! ### Steps up and down -/

/-- Scalars have no children, and those of a mapping are keys, which are scalars, each with a
value behind it. -/
structure Addressable (t : Tree) : Prop where
  linked : t.Linked
  rooted : t.Rooted
  scalar : ∀ r : Ref t, r.tag.isContainer = false → r.children = []
  even : ∀ m : Ref t, m.tag = .map → m.children.length % 2 = 0
  key : ∀ {m key value : Ref t}, (key, value) ∈ m.entries → key.tag.isContainer = false

/-- What a path to a node is to lead to: its value if the node is a key, or else the node. -/
inductive Ref.Meant : Ref t → Ref t → Prop
  | value {m key value : Ref t} (entry : (key, value) ∈ m.entries) : Meant key value
  | self {r : Ref t} (no_key : ∀ m value : Ref t, (r, value) ∉ m.entries) : Meant r r

namespace Addressable

variable (ht : t.Addressable) {m key value r s p : Ref t}

include ht

/-- A key and its value stand next to each other, and the key first. -/
theorem places (h : (key, value) ∈ m.entries) :
    key.parent? = some m ∧ value.parent? = some m ∧ key.slot % 2 = 0 ∧
      value.slot = key.slot + 1 := by
  obtain ⟨-, i, hkey, hvalue⟩ := Ref.mem_entries.1 h
  obtain ⟨hkeyParent, hkeySlot⟩ := ht.linked.child?_iff.1 hkey
  obtain ⟨hvalueParent, hvalueSlot⟩ := ht.linked.child?_iff.1 hvalue
  exact ⟨hkeyParent, hvalueParent, by omega, by omega⟩

theorem stepTo_entry (h : (key, value) ∈ m.entries) :
    m.stepTo key.slot = [.key key.value] ∧ m.stepTo value.slot = [.key key.value] := by
  obtain ⟨hkey, -, heven, hslot⟩ := ht.places h
  have hchild : m.child? key.slot = some key := ht.linked.child?_iff.2 ⟨hkey, rfl⟩
  have hpart : key.slot - key.slot % 2 = key.slot := by omega
  have hpart' : value.slot - value.slot % 2 = key.slot := by omega
  rw [Ref.stepTo, Ref.stepTo, (Ref.mem_entries.1 h).1, hpart, hpart', hchild]
  exact ⟨rfl, rfl⟩

/-- A key and its value have one path. -/
theorem path_entry (h : (key, value) ∈ m.entries) : key.path = value.path := by
  obtain ⟨hkey, hvalue, -, -⟩ := ht.places h
  obtain ⟨hstep, hstep'⟩ := ht.stepTo_entry h
  rw [Ref.path_of_child hkey, Ref.path_of_child hvalue, hstep, hstep']

/-- What stands in a mapping is a key or a value. -/
theorem exists_entry (hm : m.tag = .map) (h : r.parent? = some m) :
    ∃ key value, (key, value) ∈ m.entries ∧ (r = key ∨ r = value) := by
  have hr : m.children[r.slot]? = some r := by
    rw [Ref.getElem?_children]
    exact ht.linked.child?_iff.2 ⟨h, rfl⟩
  obtain ⟨hlt, -⟩ := List.getElem?_eq_some_iff.1 hr
  have heven := ht.even m hm
  have hkey : 2 * (r.slot / 2) < m.children.length := by omega
  have hvalue : 2 * (r.slot / 2) + 1 < m.children.length := by omega
  refine ⟨m.children[2 * (r.slot / 2)], m.children[2 * (r.slot / 2) + 1], ?_, ?_⟩
  · refine Ref.mem_entries.2 ⟨hm, r.slot / 2, ?_, ?_⟩
    · rw [← Ref.getElem?_children, List.getElem?_eq_getElem hkey]
    · rw [← Ref.getElem?_children, List.getElem?_eq_getElem hvalue]
  · rcases Nat.mod_two_eq_zero_or_one r.slot with hslot | hslot
    · refine .inl (Option.some.inj ?_)
      rw [← hr, ← List.getElem?_eq_getElem hkey]
      congr 1
      omega
    · refine .inr (Option.some.inj ?_)
      rw [← hr, ← List.getElem?_eq_getElem hvalue]
      congr 1
      omega

/-- A value is no key. -/
theorem not_key (h : (key, value) ∈ m.entries) {m' other : Ref t} :
    (value, other) ∉ m'.entries := by
  intro hvalue
  obtain ⟨-, -, heven, hslot⟩ := ht.places h
  obtain ⟨-, -, heven', -⟩ := ht.places hvalue
  omega

theorem meant_of_no_map (hp : p.tag ≠ .map) (h : r.parent? = some p) : r.Meant r := by
  refine .self fun m value hmem => hp ?_
  obtain ⟨hparent, -⟩ := ht.places hmem
  rw [Option.some.inj (h.symm.trans hparent)]
  exact (Ref.mem_entries.1 hmem).1

/-- The step up from a node is one step, and going it down leads to what is meant. -/
theorem exists_step (hdistinct : t.DistinctKeys) (h : r.parent? = some p) :
    ∃ s, p.stepTo r.slot = [s] ∧ ∃ target, p.step? s = some target ∧ r.Meant target := by
  have hcontainer : p.tag.isContainer = true := by
    by_contra hscalar
    have hchildren := ht.scalar p (Bool.not_eq_true _ ▸ hscalar)
    have hmem := ht.linked.mem_children.2 h
    rw [hchildren] at hmem
    cases hmem
  by_cases hm : p.tag = .map
  · obtain ⟨key, value, hentry, hr⟩ := ht.exists_entry hm h
    obtain ⟨hstep, hstep'⟩ := ht.stepTo_entry hentry
    refine ⟨.key key.value, ?_, value, Ref.step?_key hdistinct hentry, ?_⟩
    · rcases hr with rfl | rfl
      · exact hstep
      · exact hstep'
    · rcases hr with rfl | rfl
      · exact .value hentry
      · exact .self fun _ _ => ht.not_key hentry
  · have hseq : p.tag = .seq := by
      by_contra hseq
      cases hcontainer.symm.trans (Tag.isContainer_of_ne hseq hm)
    refine ⟨.index r.slot, ?_, r, ht.linked.child?_iff.2 ⟨h, rfl⟩, ht.meant_of_no_map hm h⟩
    rw [Ref.stepTo, hseq]

/-- What has children is no key. -/
theorem meant_self_of_child (h : r.parent? = some p) (hp : p.Meant s) : s = p := by
  cases hp with
  | value hentry =>
      have hmem := ht.linked.mem_children.2 h
      rw [ht.scalar p (ht.key hentry)] at hmem
      cases hmem
  | self _ => rfl

theorem meant_root (h : r.parent? = none) : r.Meant r :=
  .self fun _ _ hmem => by cases h.symm.trans (ht.places hmem).1

/-- **A path leads to what is meant.** -/
theorem follow?_path (hdistinct : t.DistinctKeys) {root : Ref t} (hroot : root.id = 0) :
    ∀ r : Ref t, ∃ target, root.follow? r.path = some target ∧ r.Meant target := by
  refine ht.linked.induction ht.rooted ?_ ?_
  · intro r hid
    have hnone := ht.rooted.parent?_eq_none.2 hid
    obtain rfl : root = r := Ref.eq_of_id (hroot.trans hid.symm)
    exact ⟨root, by rw [Ref.path_of_root hnone]; rfl, ht.meant_root hnone⟩
  · rintro p r hchild ⟨target, hfollow, hmeant⟩
    have hparent := ht.linked.mem_children.1 hchild
    obtain rfl := ht.meant_self_of_child hparent hmeant
    obtain ⟨s, hup, target', hdown, hmeant'⟩ := ht.exists_step hdistinct hparent
    refine ⟨target', ?_, hmeant'⟩
    rw [Ref.path_of_child hparent, hup, Ref.follow?_concat, hfollow]
    exact hdown

/-- A value has one key. -/
theorem key_unique (h : (key, value) ∈ m.entries) {m' other : Ref t}
    (h' : (other, value) ∈ m'.entries) : key = other := by
  obtain ⟨hkey, hvalue, -, hslot⟩ := ht.places h
  obtain ⟨hkey', hvalue', -, hslot'⟩ := ht.places h'
  obtain rfl := Option.some.inj (hvalue.symm.trans hvalue')
  have hplace := ht.linked.child?_iff.2 ⟨hkey, rfl⟩
  have hplace' := ht.linked.child?_iff.2 ⟨hkey', rfl⟩
  obtain hslots : key.slot = other.slot := by omega
  exact Option.some.inj (hplace.symm.trans (hslots ▸ hplace'))

/-- Nodes for which the same is meant are one, or a key and its value. -/
theorem eq_or_entry {target : Ref t} (hr : r.Meant target) (hs : s.Meant target) :
    r = s ∨ ∃ m : Ref t, (r, s) ∈ m.entries ∨ (s, r) ∈ m.entries := by
  cases hr with
  | value hentry =>
      cases hs with
      | value hentry' => exact .inl (ht.key_unique hentry hentry')
      | self _ => exact .inr ⟨_, .inl hentry⟩
  | self _ =>
      cases hs with
      | value hentry => exact .inr ⟨_, .inr hentry⟩
      | self _ => exact .inl rfl

theorem path_eq_iff (hdistinct : t.DistinctKeys) {root : Ref t} (hroot : root.id = 0) :
    r.path = s.path ↔ r = s ∨ ∃ m : Ref t, (r, s) ∈ m.entries ∨ (s, r) ∈ m.entries := by
  constructor
  · intro hpath
    obtain ⟨target, hfollow, hr⟩ := ht.follow?_path hdistinct hroot r
    obtain ⟨target', hfollow', hs⟩ := ht.follow?_path hdistinct hroot s
    rw [hpath] at hfollow
    obtain rfl := Option.some.inj (hfollow.symm.trans hfollow')
    exact ht.eq_or_entry hr hs
  · rintro (rfl | ⟨m, h | h⟩)
    · rfl
    · exact ht.path_entry h
    · exact (ht.path_entry h).symm

/-- A path has a step for each node above. -/
theorem length_path (hdistinct : t.DistinctKeys) :
    ∀ r : Ref t, r.path.length = {a | r.Below a}.ncard := by
  refine ht.linked.induction ht.rooted ?_ ?_
  · intro r hid
    have hnone := ht.rooted.parent?_eq_none.2 hid
    rw [Ref.path_of_root hnone, Ref.ncard_below_of_root hnone, List.length_nil]
  · intro p r hchild ih
    have hparent := ht.linked.mem_children.1 hchild
    obtain ⟨s, hstep, -⟩ := ht.exists_step hdistinct hparent
    rw [Ref.path_of_child hparent, hstep, List.length_append, ih,
      Ref.ncard_below_of_child hparent]
    rfl

end Addressable

theorem Ref.mem_nodes (r : Ref t) : r ∈ t.nodes :=
  List.mem_map.2 ⟨⟨r.id, r.inTree⟩, List.mem_finRange _, rfl⟩

instance : Decidable t.DistinctKeys :=
  decidable_of_iff (∀ m ∈ t.nodes, (m.entries.map fun entry => entry.1.value).Nodup)
    ⟨fun h m => h m m.mem_nodes, fun h m _ => h m⟩

/-- What paths of a tree tell. -/
structure FaithfulPaths (t : Tree) : Prop where
  /-- Two nodes share a path only if they are a key and its value. -/
  shared : ∀ r s : Ref t,
    r.path = s.path ↔ r = s ∨ ∃ m : Ref t, (r, s) ∈ m.entries ∨ (s, r) ∈ m.entries
  /-- A path has a step for each node above. -/
  length : ∀ r : Ref t, r.path.length = {a | r.Below a}.ncard
  /-- A path leads from the root to the node, or to its value if the node is a key. -/
  leads : ∃ root, t.root? = some root ∧
    ∀ r : Ref t, ∃ target, root.follow? r.path = some target ∧ r.Meant target

end Tree

/-! ### Documents -/

open YamlDecode.Tree in
theorem parse_addressable {text : String} {t : Tree} (h : parse text = .ok t) :
    t.Addressable := by
  have hformed : ∀ r : Ref t,
      Formed (.node r.label (r.children.map fun c => c.view.map Ref.label)) :=
    fun r => r.map_view ▸ (parse_formed h r).self
  obtain ⟨node, -, rfl⟩ := exists_read_of_parse h
  obtain ⟨hlinked, hrooted⟩ := linked_ofRose node
  refine ⟨hlinked, hrooted, ?_, ?_, ?_⟩
  · intro r hscalar
    exact List.map_eq_nil_iff.1 ((hformed r).childless hscalar)
  · intro m hmap
    have heven := ((hformed m).entries hmap).1.even
    rwa [Rose.children_node, List.length_map] at heven
  · intro m key value hentry
    obtain ⟨hmap, i, hkey, -⟩ := Ref.mem_entries.1 hentry
    have hscalar := ((hformed m).entries hmap).1.key (i := i) (c := key.view.map Ref.label) (by
      rw [Rose.children_node, List.getElem?_map, Ref.getElem?_children, hkey]
      rfl)
    rwa [key.map_view, Rose.label_node] at hscalar

/-- **Paths are addresses**, in documents without a mapping that holds two keys of one text. -/
theorem parse_paths {text : String} {t : Tree} (h : parse text = .ok t)
    (hdistinct : t.DistinctKeys) : t.FaithfulPaths := by
  have ht := parse_addressable h
  obtain ⟨node, -, rfl⟩ := exists_read_of_parse h
  obtain ⟨root, hroot, -⟩ := Tree.map_view_ofRose node
  have hid := Tree.root?_eq_some.1 hroot
  exact ⟨fun r s => ht.path_eq_iff hdistinct hid, ht.length_path hdistinct,
    root, hroot, ht.follow?_path hdistinct hid⟩

/-- A sequence below a key, and flow collections. -/
theorem parse_paths_nested :
    ∃ t, parse "a:\n- b: 1\n  c: \x7bd: [x, y]\x7d\n" = .ok t ∧ t.DistinctKeys ∧
      t.FaithfulPaths := by
  have hread : Document.read "a:\n- b: 1\n  c: \x7bd: [x, y]\x7d\n".toList = .ok
      (.node ⟨.map, "", 1, 1⟩ [Document.leaf .str ['a'] 1 1, .node ⟨.seq, "", 2, 1⟩
        [.node ⟨.map, "", 2, 3⟩ [Document.leaf .str ['b'] 2 3, Document.leaf .int ['1'] 2 6,
          Document.leaf .str ['c'] 3 3, .node ⟨.map, "", 3, 6⟩ [Document.leaf .str ['d'] 3 7,
            .node ⟨.seq, "", 3, 10⟩ [Document.leaf .str ['x'] 3 11,
              Document.leaf .str ['y'] 3 14]]]]]) := by cbv
  have hparse := congrArg (Except.map Tree.ofRose) hread
  exact ⟨_, hparse, by decide +kernel, parse_paths hparse (by decide +kernel)⟩

end YamlDecode
