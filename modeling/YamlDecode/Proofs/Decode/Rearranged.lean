/-
The order of entries is of no account.

Two documents are rearranged if they differ in the order of the entries of mappings only, at any
depth.  A pass sees that order: it binds fields by the first key that names them, looks for
repeated keys from the front, stops at the first error or defect and puts out members as they
come.  What comes out of a success does not show it.

By `decode_eq` a value comes out if there are no errors, and by the listing lemmas that is a
property of each entry alone, besides two conditions on the keys together, which are about lists
without repetitions.  `Shuffled` carries all of these from one mapping to the other.  That objects
then agree as sets of members needs names that are all different: keys that are not repeated for a
map, and for a struct a layout in which every field is found under its own key.

The induction is on the nodes of one tree, from the children upwards, for all targets at once.
-/
import YamlDecode.Proofs.Decode.Listing
import YamlDecode.Proofs.Document.Address
import YamlDecode.Proofs.Target.Layout

namespace YamlDecode

open YamlDecode.Tree

/-! ### Pairs in another order -/

/-- The pairs of two lists match one to one, in any order. -/
inductive Shuffled {α α' β β' : Type} (R : α → α' → Prop) (S : β → β' → Prop) :
    List (α × β) → List (α' × β') → Prop
  | nil : Shuffled R S [] []
  | cons {a : α} {a' : α'} {b : β} {b' : β'} {xs : List (α × β)} {ys : List (α' × β')}
      (first : R a a') (second : S b b') (rest : Shuffled R S xs ys) :
      Shuffled R S ((a, b) :: xs) ((a', b') :: ys)
  | perm {xs xs' : List (α × β)} {ys : List (α' × β')} (order : xs'.Perm xs)
      (matched : Shuffled R S xs' ys) : Shuffled R S xs ys

namespace Shuffled

variable {α α' β β' γ γ' δ δ' : Type} {R : α → α' → Prop} {S : β → β' → Prop}
  {xs : List (α × β)} {ys : List (α' × β')}

theorem imp {R' : α → α' → Prop} {S' : β → β' → Prop} (h : Shuffled R S xs ys)
    (hfirst : ∀ x ∈ xs, ∀ a', R x.1 a' → R' x.1 a')
    (hsecond : ∀ x ∈ xs, ∀ b', S x.2 b' → S' x.2 b') : Shuffled R' S' xs ys := by
  induction h with
  | nil => exact .nil
  | cons first second _ ih =>
      rw [List.forall_mem_cons] at hfirst hsecond
      exact .cons (hfirst.1 _ first) (hsecond.1 _ second) (ih hfirst.2 hsecond.2)
  | perm order _ ih =>
      exact .perm order (ih (fun x hx => hfirst x (order.mem_iff.1 hx))
        fun x hx => hsecond x (order.mem_iff.1 hx))

/-- What matching pairs have in common is there as often in both lists. -/
theorem map_perm {f : α × β → γ} {g : α' × β' → γ} (h : Shuffled R S xs ys)
    (hfg : ∀ a a' b b', R a a' → S b b' → f (a, b) = g (a', b')) :
    (xs.map f).Perm (ys.map g) := by
  induction h with
  | nil => exact .nil
  | cons first second _ ih =>
      rw [List.map_cons, List.map_cons, hfg _ _ _ _ first second]
      exact ih.cons _
  | perm order _ ih => exact (order.map f).symm.trans ih

theorem forall_iff {P : α × β → Prop} {Q : α' × β' → Prop} (h : Shuffled R S xs ys)
    (hiff : ∀ a a' b b', R a a' → S b b' → (P (a, b) ↔ Q (a', b'))) :
    (∀ x ∈ xs, P x) ↔ ∀ y ∈ ys, Q y := by
  induction h with
  | nil => simp
  | cons first second _ ih =>
      rw [List.forall_mem_cons, List.forall_mem_cons, hiff _ _ _ _ first second, ih]
  | perm order _ ih =>
      rw [← ih]
      exact forall_congr' fun x => imp_congr_left order.mem_iff.symm

/-- Pairs that match are both left out, or both turned into pairs that match. -/
theorem filterMap {R' : γ → γ' → Prop} {S' : δ → δ' → Prop} {f : α × β → Option (γ × δ)}
    {g : α' × β' → Option (γ' × δ')} (h : Shuffled R S xs ys)
    (hfg : ∀ x ∈ xs, ∀ y, R x.1 y.1 → S x.2 y.2 →
      Option.Rel (fun c d => R' c.1 d.1 ∧ S' c.2 d.2) (f x) (g y)) :
    Shuffled R' S' (xs.filterMap f) (ys.filterMap g) := by
  induction h with
  | nil => exact .nil
  | cons first second _ ih =>
      rw [List.forall_mem_cons] at hfg
      have hhead := hfg.1 (_, _) first second
      rw [List.filterMap_cons, List.filterMap_cons]
      revert hhead
      generalize f _ = c, g _ = d
      rintro (⟨hc, hd⟩ | _)
      · exact .cons hc hd (ih hfg.2)
      · exact ih hfg.2
  | perm order _ ih =>
      exact .perm (order.filterMap f) (ih fun x hx => hfg x (order.mem_iff.1 hx))

theorem map {R' : γ → γ' → Prop} {S' : δ → δ' → Prop} {f : α × β → γ × δ}
    {g : α' × β' → γ' × δ'} (h : Shuffled R S xs ys)
    (hfg : ∀ x ∈ xs, ∀ y, R x.1 y.1 → S x.2 y.2 → R' (f x).1 (g y).1 ∧ S' (f x).2 (g y).2) :
    Shuffled R' S' (xs.map f) (ys.map g) := by
  rw [← List.filterMap_eq_map, ← List.filterMap_eq_map]
  exact h.filterMap fun x hx y hfirst hsecond => .some (hfg x hx y hfirst hsecond)

end Shuffled

/-- The same value, if objects are sets of members. -/
inductive Json.Same : Json → Json → Prop
  | refl (v : Json) : Same v v
  | arr {items items' : List Json} (each : List.Forall₂ Same items items') :
      Same (.arr items) (.arr items')
  | obj {members members' : List (String × Json)} (distinct : (members.map Prod.fst).Nodup)
      (each : Shuffled Eq Same members members') : Same (.obj members) (.obj members')

/-! ### Rearranged trees -/

/-- What hangs below two nodes differs in the order of entries only. -/
inductive Tree.Ref.Rearranged {t t' : Tree} : Ref t → Ref t' → Prop
  | node {r : Ref t} {r' : Ref t'} (tag : r.tag = r'.tag) (value : r.value = r'.value)
      (ordered : r.tag ≠ .map) (each : List.Forall₂ Rearranged r.children r'.children) :
      Rearranged r r'
  | map {r : Ref t} {r' : Ref t'} (tag : r.tag = .map) (tag' : r'.tag = .map)
      (value : r.value = r'.value) (each : Shuffled Rearranged Rearranged r.entries r'.entries) :
      Rearranged r r'

/-- Two trees differ in the order of entries only. -/
def Tree.Rearranged (t t' : Tree) : Prop :=
  ∃ root root', t.root? = some root ∧ t'.root? = some root' ∧ root.Rearranged root'

/-! ### Nodes that decode alike -/

/-- Two attempts succeed together, and then with the same value. -/
structure Together (ok ok' : Prop) (v v' : Json) : Prop where
  iff : ok ↔ ok'
  same : ok → v.Same v'

variable {t t' : Tree} {strict : Bool}

/-- Two nodes decode to the same in a target, or neither of them does. -/
def Agree (strict : Bool) (target : Target) (r : Ref t) (r' : Ref t') : Prop :=
  Together (errorsIn strict target r.view = []) (errorsIn strict target r'.view = [])
    (valueIn target r.view) (valueIn target r'.view)

/-- Nodes with the same text that agree in all targets. -/
structure Alike (strict : Bool) (r : Ref t) (r' : Ref t') : Prop where
  value : r.value = r'.value
  agree : ∀ target, Agree strict target r r'

theorem Together.fail {ε ε' : Type} {e : ε} {e' : ε'} {v v' : Json} :
    Together ([e] = []) ([e'] = []) v v' :=
  ⟨iff_of_false nofun nofun, nofun⟩

theorem Together.scalar {ε ε' : Type} {e : ε} {e' : ε'} (v : Option Json) :
    Together ((if v.isSome then [] else [e]) = []) ((if v.isSome then [] else [e']) = [])
      (v.getD .null) (v.getD .null) := by
  cases v with
  | none => exact .fail
  | some v => exact ⟨iff_of_true rfl rfl, fun _ => .refl v⟩

section Collections

variable {r : Ref t} {r' : Ref t'} {target : Target}

theorem together_items {element : Target}
    (h : List.Forall₂ (Agree strict element) r.children r'.children) :
    Together (itemErrors strict element (r.children.map Ref.view) = [])
      (itemErrors strict element (r'.children.map Ref.view) = [])
      (.arr (itemValues element (r.children.map Ref.view)))
      (.arr (itemValues element (r'.children.map Ref.view))) := by
  rw [itemErrors_view, itemErrors_view, itemValues_view, itemValues_view]
  generalize r.children = cs, r'.children = cs' at h
  constructor
  · induction h with
    | nil => simp
    | cons first _ ih => rw [List.forall_mem_cons, List.forall_mem_cons, first.iff, ih]
  · intro hok
    refine .arr ?_
    rw [List.forall₂_map_left_iff, List.forall₂_map_right_iff]
    exact ((List.forall₂_and_left _ _).2 ⟨hok, h⟩).imp fun c c' hc => hc.2.same hc.1

variable (hmap : r.tag = .map) (hmap' : r'.tag = .map)
  (h : Shuffled (Alike strict) (Alike strict) r.entries r'.entries)

include h in
theorem texts_perm :
    (r.entries.map fun e => e.1.value).Perm (r'.entries.map fun e => e.1.value) :=
  h.map_perm fun _ _ _ _ first _ => first.value

include hmap hmap' h

theorem together_entries {key value : Target} :
    Together
      (mappingErrors target (r.children.map Ref.view)
        (entryErrors strict key value (r.children.map Ref.view)) = [])
      (mappingErrors target (r'.children.map Ref.view)
        (entryErrors strict key value (r'.children.map Ref.view)) = [])
      (.obj (entryValues key value (r.children.map Ref.view)))
      (.obj (entryValues key value (r'.children.map Ref.view))) := by
  rw [entryErrors_view hmap, entryErrors_view hmap', entryValues_view hmap, entryValues_view hmap']
  constructor
  · refine and_congr (texts_perm h).nodup_iff (h.forall_iff ?_)
    intro k k' v v' hkey hvalue
    exact and_congr (hkey.agree key).iff (hvalue.agree value).iff
  · rintro ⟨hdistinct, hok⟩
    refine .obj ?_ (h.map ?_)
    · rw [List.map_map]
      exact hdistinct
    · intro e he e' hkey hvalue
      exact ⟨hkey.value, (hvalue.agree value).same (hok e he).2⟩

theorem together_fields {layout : Layout} (howned : layout.Owned) :
    Together
      (mappingErrors target (r.children.map Ref.view)
        (fieldErrors strict target layout [] (r.children.map Ref.view)) = [])
      (mappingErrors target (r'.children.map Ref.view)
        (fieldErrors strict target layout [] (r'.children.map Ref.view)) = [])
      (.obj (fieldValues layout (r.children.map Ref.view)))
      (.obj (fieldValues layout (r'.children.map Ref.view))) := by
  have htexts := texts_perm h
  rw [fieldErrors_view hmap, fieldErrors_view hmap', fieldValues_view hmap, fieldValues_view hmap']
  constructor
  · refine and_congr htexts.nodup_iff
      (and_congr (htexts.filterMap _).nodup_iff (h.forall_iff ?_))
    intro k k' v v' hkey hvalue
    rw [Layout.Fits, Layout.Fits, hkey.value]
    cases layout.lookup k'.value with
    | none => exact Iff.rfl
    | some slot => exact (hvalue.agree slot.target).iff
  · rintro ⟨-, hids, hok⟩
    refine .obj ?_ (h.filterMap ?_)
    · rw [← fieldValues_view hmap]
      exact nodup_fieldValues howned hmap hids
    · intro e he e' hkey hvalue
      have hfits := hok e he
      rw [Layout.Fits] at hfits
      rw [← hkey.value]
      cases hslot : layout.lookup e.1.value with
      | none => exact .none
      | some slot =>
          rw [hslot] at hfits
          exact .some ⟨rfl, (hvalue.agree slot.target).same hfits⟩

end Collections

theorem Together.ofTag {tag : Tag} {r : Ref t} {r' : Ref t'} {target : Target}
    {es : List (DecodeError t)} {es' : List (DecodeError t')} {v v' : Json} (htag : r.tag = r'.tag)
    (h : r.tag = tag → Together (es = []) (es' = []) v v') :
    Together ((if r.tag = tag then es else [misfit r target]) = [])
      ((if r'.tag = tag then es' else [misfit r' target]) = []) v v' := by
  rw [← htag]
  by_cases heq : r.tag = tag
  · rw [if_pos heq, if_pos heq]
    exact h heq
  · rw [if_neg heq, if_neg heq]
    exact .fail

/-- Nodes agree if their tags and texts do, and if they decode alike as sequences and as mappings
of every kind. -/
theorem agree_of_parts {r : Ref t} {r' : Ref t'} (htag : r.tag = r'.tag)
    (hvalue : r.value = r'.value)
    (hitems : r.tag = .seq → ∀ element, List.Forall₂ (Agree strict element) r.children r'.children)
    (hentries : r.tag = .map → Shuffled (Alike strict) (Alike strict) r.entries r'.entries) :
    Alike strict r r' := by
  refine ⟨hvalue, fun target => ?_⟩
  rw [Agree, r.view_eq, r'.view_eq, errorsIn, errorsIn, valueIn, valueIn]
  by_cases hnull : r.tag = .null
  · have hnull' : r'.tag = .null := htag ▸ hnull
    rw [if_pos hnull, if_pos hnull, if_pos hnull', if_pos hnull']
    exact ⟨iff_of_true rfl rfl, fun _ => .refl _⟩
  · have hnull' : r'.tag ≠ .null := htag ▸ hnull
    rw [if_neg hnull, if_neg hnull, if_neg hnull', if_neg hnull']
    cases hshape : target.shape with
    | struct fields =>
        cases hlayout : target.layout with
        | error d => exact .fail
        | ok layout =>
            exact .ofTag htag fun h =>
              together_fields h (htag ▸ h) (hentries h) (Layout.owned_layout hlayout)
    | sequence element => exact .ofTag htag fun h => together_items (hitems h element)
    | map key value =>
        exact .ofTag htag fun h => together_entries h (htag ▸ h) (hentries h)
    | any =>
        by_cases hseq : r.tag = .seq
        · have hseq' : r'.tag = .seq := htag ▸ hseq
          simp only [if_pos hseq, if_pos hseq']
          exact together_items (hitems hseq target)
        · have hseq' : r'.tag ≠ .seq := htag ▸ hseq
          simp only [if_neg hseq, if_neg hseq']
          by_cases hmap : r.tag = .map
          · have hmap' : r'.tag = .map := htag ▸ hmap
            simp only [if_pos hmap, if_pos hmap']
            exact together_entries hmap hmap' (hentries hmap)
          · have hmap' : r'.tag ≠ .map := htag ▸ hmap
            simp only [if_neg hmap, if_neg hmap']
            rw [← htag, ← hvalue]
            exact .scalar _
    | bool | int | uint | float | string =>
        rw [← htag, ← hvalue]
        exact .scalar _

/-- Nodes that are rearranged decode alike. -/
theorem Tree.Ref.Rearranged.alike :
    ∀ (r : Ref t) (r' : Ref t'), r.Rearranged r' → Alike strict r r' := by
  refine Ref.children_induction fun r ih r' h => ?_
  cases h with
  | node tag value ordered each =>
      refine agree_of_parts tag value (fun _ element => ?_) fun hmap => absurd hmap ordered
      exact ((List.forall₂_and_left _ _).2 ⟨ih, each⟩).imp
        fun c c' hc => (hc.1 c' hc.2).agree element
  | map tag tag' value each =>
      refine agree_of_parts (tag.trans tag'.symm) value (fun hseq => ?_) fun _ => ?_
      · cases tag.symm.trans hseq
      · have hbelow : ∀ e ∈ r.entries, e.1 ∈ r.children ∧ e.2 ∈ r.children := by
          intro e he
          obtain ⟨-, i, hkey, hvalue⟩ := Ref.mem_entries.1 he
          exact ⟨Ref.mem_children.2 ⟨_, hkey⟩, Ref.mem_children.2 ⟨_, hvalue⟩⟩
        exact each.imp (fun e he => ih e.1 (hbelow e he).1) fun e he => ih e.2 (hbelow e he).2

/-- **The order of entries does not show in a value.**  If two trees differ in it only, then one
of them decodes exactly if the other does, and to the same value. -/
theorem decode_rearranged (h : t.Rearranged t') (options : Options) (target : Target) :
    (∀ v, decode options t target = .ok v →
        ∃ v', decode options t' target = .ok v' ∧ v.Same v') ∧
      ∀ v', decode options t' target = .ok v' →
        ∃ v, decode options t target = .ok v ∧ v.Same v' := by
  obtain ⟨root, root', hroot, hroot', hrearranged⟩ := h
  have hagree : Agree options.knownFields target root root' :=
    (Ref.Rearranged.alike root root' hrearranged).agree target
  have herrors : t.errors options.knownFields target = [] ↔
      t'.errors options.knownFields target = [] := by
    rw [Tree.errors, Tree.errors, hroot, hroot']
    exact hagree.iff
  have hsame : t.errors options.knownFields target = [] →
      (t.decoded target).Same (t'.decoded target) := by
    rw [Tree.errors, Tree.decoded, Tree.decoded, hroot, hroot']
    exact hagree.same
  constructor
  · intro v hv
    obtain ⟨hnil, rfl⟩ := decode_eq_ok.1 hv
    exact ⟨_, decode_eq_ok.2 ⟨herrors.1 hnil, rfl⟩, hsame hnil⟩
  · intro v' hv
    obtain ⟨hnil, rfl⟩ := decode_eq_ok.1 hv
    exact ⟨_, decode_eq_ok.2 ⟨herrors.2 hnil, rfl⟩, hsame (herrors.2 hnil)⟩

theorem Tree.Ref.Rearranged.leaf {r : Ref t} {r' : Ref t'}
    (hlabel : r.tag = r'.tag ∧ r.value = r'.value) (hmap : r.tag ≠ .map)
    (hbelow : r.children = [] ∧ r'.children = []) : r.Rearranged r' := by
  refine .node hlabel.1 hlabel.2 hmap ?_
  rw [hbelow.1, hbelow.2]
  exact .nil

/-- Two fields in either order, one of them under an alias. -/
theorem decode_rearranged_fields :
    ∃ t t' target, parse "a: 1\nb: x\n" = .ok t ∧ parse "b: x\na: 1\n" = .ok t' ∧
      target = Target.struct "s" [⟨"a", .int, [], false⟩, ⟨"name", .string, ["b"], false⟩] ∧
      t.Rearranged t' ∧
      (∀ v, decode ⟨true, .firstError⟩ t target = .ok v →
        ∃ v', decode ⟨true, .firstError⟩ t' target = .ok v' ∧ v.Same v') ∧
      ∀ v', decode ⟨true, .firstError⟩ t' target = .ok v' →
        ∃ v, decode ⟨true, .firstError⟩ t target = .ok v ∧ v.Same v' := by
  have hread : Document.read "a: 1\nb: x\n".toList = .ok
      (.node ⟨.map, "", 1, 1⟩ [Document.leaf .str ['a'] 1 1, Document.leaf .int ['1'] 1 4,
        Document.leaf .str ['b'] 2 1, Document.leaf .str ['x'] 2 4]) := by cbv
  have hread' : Document.read "b: x\na: 1\n".toList = .ok
      (.node ⟨.map, "", 1, 1⟩ [Document.leaf .str ['b'] 1 1, Document.leaf .str ['x'] 1 4,
        Document.leaf .str ['a'] 2 1, Document.leaf .int ['1'] 2 4]) := by cbv
  have hentries : Ref.entries (t := ofRose (.node ⟨.map, "", 1, 1⟩
      [Document.leaf .str ['a'] 1 1, Document.leaf .int ['1'] 1 4, Document.leaf .str ['b'] 2 1,
        Document.leaf .str ['x'] 2 4])) ⟨0, by decide +kernel⟩ =
      [(⟨1, by decide +kernel⟩, ⟨2, by decide +kernel⟩),
        (⟨3, by decide +kernel⟩, ⟨4, by decide +kernel⟩)] := by decide +kernel
  have hentries' : Ref.entries (t := ofRose (.node ⟨.map, "", 1, 1⟩
      [Document.leaf .str ['b'] 1 1, Document.leaf .str ['x'] 1 4, Document.leaf .str ['a'] 2 1,
        Document.leaf .int ['1'] 2 4])) ⟨0, by decide +kernel⟩ =
      [(⟨1, by decide +kernel⟩, ⟨2, by decide +kernel⟩),
        (⟨3, by decide +kernel⟩, ⟨4, by decide +kernel⟩)] := by decide +kernel
  refine ⟨_, _, _, congrArg (Except.map Tree.ofRose) hread,
    congrArg (Except.map Tree.ofRose) hread', rfl, ?_⟩
  suffices hrearranged : Tree.Rearranged (ofRose _) (ofRose _) from
    ⟨hrearranged, decode_rearranged hrearranged _ _⟩
  refine ⟨⟨0, by decide +kernel⟩, ⟨0, by decide +kernel⟩, by decide +kernel, by decide +kernel,
    .map (by decide +kernel) (by decide +kernel) (by decide +kernel) ?_⟩
  rw [hentries, hentries']
  refine .perm (.swap _ _ []) (.cons ?_ ?_ (.cons ?_ ?_ .nil))
  all_goals exact .leaf (by decide +kernel) (by decide +kernel) (by decide +kernel)

end YamlDecode
