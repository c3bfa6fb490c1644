/-
A pass visits no node twice.

Which nodes a pass decodes cannot be seen from what it gives or records.  But a pass tells of each
node that is to be decoded, before it looks at anything else of it, and `Walk` is for those that
listen: its steps are steps of a pass, and it may list nodes besides.

`Follows` ties a walk to a pass.  The walk does what the pass does, and what it lists is found, in
this order, in the listing of the labelled tree that it goes down.  Steps in a row go down parts of
that tree that stand behind one another, so the fact is kept by every way of making steps out of
steps.  It remains that a tree whose links agree lists no node twice, however it was built.
-/
import YamlDecode.Decode
import YamlDecode.Proofs.Decode.Yields
import YamlDecode.Proofs.Tree.Preorder
import YamlDecode.Proofs.Tree.Pushes

namespace YamlDecode

open YamlDecode.Tree

/-- A step of a pass that lists the nodes it visits beside the errors it records. -/
abbrev Walk (t : Tree) (α : Type) : Type :=
  OptionT (StateM (Array (DecodeError t) × List (Ref t))) α

namespace Walk

variable {t : Tree} {α β : Type}

/-- A step of a pass, which lists no node. -/
def step (p : Pass t α) : Walk t α :=
  OptionT.mk fun s => ((p.run.run s.1).1, (p.run.run s.1).2, s.2)

instance : MonadLift (Pass t) (Walk t) := ⟨step⟩

/-- Lists a node. -/
def visit (r : Ref t) : Walk t Unit :=
  OptionT.mk fun s => (some (), s.1, s.2 ++ [r])

/-! ### Walks follow passes -/

/-- The walk gives and records what the pass does, and lists some of the nodes in their order. -/
def Follows (w : Walk t α) (p : Pass t α) (nodes : List (Ref t)) : Prop :=
  ∀ s : Array (DecodeError t) × List (Ref t), ∃ visited, visited.Sublist nodes ∧
    w.run.run s = ((p.run.run s.1).1, (p.run.run s.1).2, s.2 ++ visited)

variable {options : Options} {w : Walk t α} {p : Pass t α} {nodes nodes' : List (Ref t)}

theorem follows_lift (p : Pass t α) : Follows (liftM p) p [] := by
  intro s
  refine ⟨[], .slnil, ?_⟩
  rw [List.append_nil]
  rfl

theorem follows_pure (a : α) : Follows (pure a : Walk t α) (pure a) [] := by
  intro s
  refine ⟨[], .slnil, ?_⟩
  rw [List.append_nil]
  rfl

/-- It does no harm to list more nodes than a walk may visit. -/
theorem Follows.mono (h : Follows w p nodes) (hsub : nodes.Sublist nodes') :
    Follows w p nodes' := by
  intro s
  obtain ⟨visited, hvisited, hrun⟩ := h s
  exact ⟨visited, hvisited.trans hsub, hrun⟩

theorem Follows.bind {f : α → Walk t β} {g : α → Pass t β} (h : Follows w p nodes)
    (hf : ∀ a, Follows (f a) (g a) nodes') : Follows (w >>= f) (p >>= g) (nodes ++ nodes') := by
  intro s
  obtain ⟨visited, hvisited, hrun⟩ := h s
  rw [Pass.run_bind, Pass.run_bind, hrun]
  rcases p.run.run s.1 with ⟨- | a, errors⟩
  · exact ⟨visited, hvisited.trans (List.sublist_append_left _ _), rfl⟩
  · obtain ⟨visited', hvisited', hrun'⟩ := hf a (errors, s.2 ++ visited)
    refine ⟨visited ++ visited', hvisited.append hvisited', ?_⟩
    rw [← List.append_assoc]
    exact hrun'

theorem Follows.after {v : Walk t β} {q : Pass t β} (h : Follows v q nodes) (p : Pass t α) :
    Follows (do let _ ← liftM p; v) (do let _ ← p; q) nodes :=
  (follows_lift p).bind fun _ => h

theorem Follows.map (f : α → β) (h : Follows w p nodes) :
    Follows (do let x ← w; return f x) (do let x ← p; return f x) nodes := by
  have hbind := h.bind fun x => follows_pure (f x)
  rwa [List.append_nil] at hbind

theorem Follows.visit (h : Follows w p nodes) (r : Ref t) :
    Follows (do visit r; w) p (r :: nodes) := by
  intro s
  obtain ⟨visited, hvisited, hrun⟩ := h (s.1, s.2 ++ [r])
  refine ⟨r :: visited, hvisited.cons_cons r, ?_⟩
  rw [Pass.run_bind]
  show w.run.run (s.1, s.2 ++ [r]) = _
  rw [hrun, List.append_assoc]
  rfl

/-- A step that goes into a node of one tag only. -/
theorem Follows.ofTag {w : Walk t Json} {p : Pass t Json} (h : Follows w p nodes) (tag : Tag)
    (r : Ref t) (target : Target) :
    Follows (if r.tag = tag then w else liftM (Pass.wrongType options r target))
      (if r.tag = tag then p else Pass.wrongType options r target) nodes := by
  by_cases htag : r.tag = tag
  · rw [if_pos htag, if_pos htag]
    exact h
  · rw [if_neg htag, if_neg htag]
    exact (follows_lift _).mono (List.nil_sublist _)

theorem Follows.unlessRepeated {w : Walk t Json} {p : Pass t Json} (h : Follows w p nodes)
    (target : Target) (below : List (Rose (Ref t))) :
    Follows (Pass.unlessRepeated options target below w)
      (Pass.unlessRepeated options target below p) nodes := by
  rw [Pass.unlessRepeated, Pass.unlessRepeated]
  cases repeats (Pass.keys below) with
  | nil => exact h
  | cons _ _ => exact ((follows_pure Json.null).after _).mono (List.nil_sublist _)

theorem follows_scalar (shape : Shape) (r : Ref t) (target : Target) :
    Follows
      (match scalarIn shape r.tag r.value with
        | some v => pure v
        | none => liftM (Pass.wrongType options r target))
      (match scalarIn shape r.tag r.value with
        | some v => pure v
        | none => Pass.wrongType options r target) [] := by
  cases scalarIn shape r.tag r.value with
  | none => exact follows_lift _
  | some v => exact follows_pure v

open YamlDecode.Pass (walk walkItems walkEntries walkFields silent recorded)

mutual

theorem walk_follows (target : Target) : ∀ r : Rose (Ref t),
    Follows (walk options visit target r) (walk options silent target r) r.preorder
  | .node r below => by
      rw [walk, walk, silent, pure_bind, Rose.preorder]
      refine Follows.visit ?_ r
      by_cases hnull : r.tag = .null
      · rw [if_pos hnull, if_pos hnull]
        exact (follows_pure _).mono (List.nil_sublist _)
      · rw [if_neg hnull, if_neg hnull]
        cases target.shape with
        | struct fields =>
            cases target.layout with
            | error d => exact ((follows_pure Json.null).after _).mono (List.nil_sublist _)
            | ok layout =>
                have hfields := walkFields_follows target layout below [] []
                exact ((hfields.map Json.obj).unlessRepeated target below).ofTag .map r target
        | sequence element =>
            exact ((walkItems_follows element below []).map Json.arr).ofTag .seq r target
        | map key value =>
            have hentries := walkEntries_follows key value below []
            exact ((hentries.map Json.obj).unlessRepeated target below).ofTag .map r target
        | any =>
            by_cases hseq : r.tag = .seq
            · rw [if_pos hseq, if_pos hseq]
              exact (walkItems_follows target below []).map Json.arr
            · rw [if_neg hseq, if_neg hseq]
              by_cases hmap : r.tag = .map
              · rw [if_pos hmap, if_pos hmap]
                have hentries := walkEntries_follows target target below []
                exact (hentries.map Json.obj).unlessRepeated target below
              · rw [if_neg hmap, if_neg hmap]
                exact (follows_scalar .any r target).mono (List.nil_sublist _)
        | bool | int | uint | float | string =>
            exact (follows_scalar _ r target).mono (List.nil_sublist _)

theorem walkItems_follows (element : Target) : ∀ (below : List (Rose (Ref t)))
    (done : List Json),
    Follows (walkItems options visit element done below)
      (walkItems options silent element done below) (Rose.preorderAll below)
  | [], done => by
      rw [walkItems, walkItems, Rose.preorderAll]
      exact follows_pure _
  | item :: rest, done => by
      rw [walkItems, walkItems, Rose.preorderAll]
      exact (walk_follows element item).bind fun v => walkItems_follows element rest (v :: done)

theorem walkEntries_follows (key value : Target) : ∀ (below : List (Rose (Ref t)))
    (done : List (String × Json)),
    Follows (walkEntries options visit key value done below)
      (walkEntries options silent key value done below) (Rose.preorderAll below)
  | k :: v :: rest, done => by
      rw [walkEntries, walkEntries, Rose.preorderAll, Rose.preorderAll]
      refine (follows_lift (recorded t)).bind fun before => (walk_follows key k).bind
        fun decodedKey => (follows_lift (recorded t)).bind fun now => ?_
      by_cases hmore : before < now
      · rw [if_pos hmore, if_pos hmore]
        exact (walkEntries_follows key value rest done).mono (List.sublist_append_right _ _)
      · rw [if_neg hmore, if_neg hmore]
        exact (walk_follows value v).bind fun decoded => walkEntries_follows key value rest _
  | [_], done => by
      rw [walkEntries, walkEntries]
      exact (follows_pure _).mono (List.nil_sublist _)
      all_goals simp
  | [], done => by
      rw [walkEntries, walkEntries]
      exact (follows_pure _).mono (List.nil_sublist _)
      all_goals simp

theorem walkFields_follows (target : Target) (layout : Layout) : ∀ (below : List (Rose (Ref t)))
    (bound : List (Nat × Nat)) (done : List (String × Json)),
    Follows (walkFields options visit target layout bound done below)
      (walkFields options silent target layout bound done below) (Rose.preorderAll below)
  | k :: v :: rest, bound, done => by
      rw [walkFields, walkFields, Rose.preorderAll, Rose.preorderAll]
      have hskip := (walkFields_follows target layout rest bound done).mono
        ((List.sublist_append_right v.preorder _).trans (List.sublist_append_right k.preorder _))
      cases layout.lookup k.label.value with
      | none =>
          by_cases hstrict : options.knownFields = true
          · simp only [if_pos hstrict]
            exact hskip.after _
          · simp only [if_neg hstrict]
            exact hskip
      | some slot =>
          show Follows (match bound.lookup slot.id with | some prior => _ | none => _)
            (match bound.lookup slot.id with | some prior => _ | none => _) _
          cases bound.lookup slot.id with
          | some prior => exact hskip.after _
          | none =>
              refine Follows.mono ?_ (List.sublist_append_right _ _)
              exact (walk_follows slot.target v).bind fun decoded =>
                walkFields_follows target layout rest _ _
  | [_], bound, done => by
      rw [walkFields, walkFields]
      exact (follows_pure _).mono (List.nil_sublist _)
      all_goals simp
  | [], bound, done => by
      rw [walkFields, walkFields]
      exact (follows_pure _).mono (List.nil_sublist _)
      all_goals simp

end

end Walk

/-! ### Trees built by hand -/

/-- Decodes a tree as `decode` does, and lists the nodes that were visited on the way. -/
def decodeVisiting (options : Options) (t : Tree) (target : Target) :
    Except (List (DecodeError t)) Json × List (Ref t) :=
  match t.root? with
  | none => (.ok .null, [])
  | some root =>
    let (value, errors, visited) :=
      (Pass.walk options Walk.visit target root.view).run.run (#[], [])
    (if errors.isEmpty then .ok (value.getD .null) else .error errors.toList, visited)

theorem decodeVisiting_of_linked {t : Tree} (h : t.Linked) (options : Options) (target : Target) :
    (decodeVisiting options t target).1 = decode options t target ∧
      (decodeVisiting options t target).2.Nodup := by
  rw [decodeVisiting, decode]
  cases t.root? with
  | none => exact ⟨rfl, List.nodup_nil⟩
  | some root =>
      obtain ⟨visited, hvisited, hrun⟩ :=
        @Walk.walk_follows t options target root.view (#[], [])
      simp only [hrun]
      refine ⟨rfl, ?_⟩
      rw [List.nil_append]
      exact (h.nodup_preorder root).sublist hvisited

/--
**A tree that is built by hand is in order.**

Whatever nodes are added, each under one that was added before or under none, the tree has just
them.  Parents come earlier; a node stands among the children of its parent, at its place, and
nowhere else; children stand in the order of their numbers; paths go from parent to child; and
decoding, into whatever target, visits no node twice.
-/
theorem ofPushes_orderly {pushes : List (Option Nat × Label)} (h : ParentsFirst pushes) :
    (ofPushes pushes).size = pushes.length ∧
      (∀ r : Ref (ofPushes pushes), pushes[r.id]? = some (r.parent?.map Ref.id, r.label)) ∧
      (ofPushes pushes).Orderly ∧
      ∀ (options : Options) (target : Target),
        (decodeVisiting options (ofPushes pushes) target).1 =
            decode options (ofPushes pushes) target ∧
          (decodeVisiting options (ofPushes pushes) target).2.Nodup := by
  have hbuilt := built_ofPushes pushes
  have hrecords := records_ofPushes h
  refine ⟨hrecords.size, ?_, hbuilt.orderly, decodeVisiting_of_linked hbuilt.linked⟩
  intro r
  rw [hrecords.entry r.id r.entry r.entry_eq, r.map_id_parent?]
  rfl

/-- A mapping with a key that has no value, a second node without a parent, and a node under a
scalar. -/
theorem ofPushes_orderly_odd :
    let pushes : List (Option Nat × Label) := [(none, ⟨.map, "", 1, 1⟩),
      (some 0, ⟨.str, "k", 1, 1⟩), (none, ⟨.seq, "", 2, 1⟩), (some 0, ⟨.seq, "", 1, 4⟩),
      (some 3, ⟨.int, "7", 1, 5⟩), (some 4, ⟨.str, "x", 1, 6⟩), (some 0, ⟨.str, "odd", 3, 1⟩),
      (some 2, ⟨.null, "", 2, 3⟩)]
    let t := ofPushes pushes
    ParentsFirst pushes ∧ t.size = 8 ∧
      (∃ r : Ref t, r.label = ⟨.str, "x", 1, 6⟩ ∧ r.path = [.key "k", .index 0]) ∧
      (∃ r : Ref t, r.label = ⟨.str, "odd", 3, 1⟩ ∧ r.path = [.key "odd"]) ∧
      (decodeVisiting {} t .any).2.Nodup := by
  intro pushes t
  have hparents : ParentsFirst pushes := by
    have hall : ∀ i < 8, ∀ x ∈ pushes[i]?, ∀ p ∈ x.1, p < i := by decide
    intro i p l hi
    exact hall i (List.getElem?_eq_some_iff.1 hi).1 _ hi p rfl
  obtain ⟨hsize, -, horderly, hvisits⟩ := ofPushes_orderly hparents
  have hlt : ∀ i < 8, i < t.entries.size := fun i hi => Nat.lt_of_lt_of_eq hi hsize.symm
  -- The nodes above the one under the scalar, from the root down.
  have hroot : (⟨0, hlt 0 (by decide)⟩ : Ref t).path = [] := horderly.path_top rfl
  have hvalue : (⟨3, hlt 3 (by decide)⟩ : Ref t).path = [.key "k"] := by
    obtain ⟨key, hkey, hpath⟩ := horderly.path_map (r := ⟨3, hlt 3 (by decide)⟩) rfl rfl
    obtain rfl : ⟨1, hlt 1 (by decide)⟩ = key := Option.some.inj hkey
    rw [hpath, hroot]
    rfl
  have hitem : (⟨4, hlt 4 (by decide)⟩ : Ref t).path = [.key "k", .index 0] := by
    rw [horderly.path_seq (r := ⟨4, hlt 4 (by decide)⟩) rfl rfl, hvalue]
    rfl
  refine ⟨hparents, hsize, ⟨⟨5, hlt 5 (by decide)⟩, rfl, ?_⟩, ⟨⟨6, hlt 6 (by decide)⟩, rfl, ?_⟩,
    (hvisits {} .any).2⟩
  · rw [horderly.path_scalar (r := ⟨5, hlt 5 (by decide)⟩) rfl rfl, hitem]
  · obtain ⟨key, hkey, hpath⟩ := horderly.path_map (r := ⟨6, hlt 6 (by decide)⟩) rfl rfl
    rw [show (⟨6, hlt 6 (by decide)⟩ : Ref t).slot = 2 from rfl] at hkey
    obtain rfl : ⟨6, hlt 6 (by decide)⟩ = key := Option.some.inj hkey
    rw [hpath, hroot]
    rfl

end YamlDecode
