/-
Errors in reading order.

A pass goes down a tree in reading order and nodes are numbered in that order, so errors stand in
the order of their nodes, and a node has one error at most.  There are two exceptions.  A defect
of a target is at no node; it ends the pass, and so it comes last.  And repeated keys are reported
by twos, so a key that is there for the third time has two errors, and errors at later keys may
stand in front of errors at earlier ones.  `Precedes` is the order with these two cases.

`InOrder` says of errors that they are at nodes of a list, and in order if that list is.  It is
kept where lists are put one behind the other, which is all that the recursion over a tree does.
The errors of a mapping with repeated keys are the one case to look into, and there it matters
that nothing else below the mapping has an error.
-/
import YamlDecode.Proofs.Decode.Origin
import YamlDecode.Proofs.Tree.Preorder
import YamlDecode.Proofs.Document.Formed

namespace YamlDecode

open YamlDecode.Tree

variable {t : Tree} {strict : Bool}

/-- The node that an error is at; a defect of a target is at none. -/
def DecodeError.node? (e : DecodeError t) : Option (Ref t) := e.text?.map TextError.node

/-- The error says that a key stands in a mapping again, behind the key `first`. -/
structure DecodeError.OfRepeat (e : DecodeError t) (m first key : Ref t) : Prop where
  repeated : m.Repeats first key
  evidence : ∃ x, e.text? = some x ∧ x.node = key ∧ x.cause = .keyAlreadyDefined ∧ x.name = none

/-- The order of errors. -/
inductive Precedes : DecodeError t → DecodeError t → Prop
  /-- Whatever there is stands in front of a defect. -/
  | defect {e f : DecodeError t} (isDefect : f.isDefect = true) : Precedes e f
  /-- Errors at repeated keys of one mapping go by the earlier keys, and then by the later ones. -/
  | repeats {e f : DecodeError t} {m first key first' key' : Ref t}
      (front : e.OfRepeat m first key) (back : f.OfRepeat m first' key')
      (lt : first.id < first'.id ∨ first = first' ∧ key.id < key'.id) : Precedes e f
  /-- Other errors go by their nodes. -/
  | nodes {e f : DecodeError t} {r s : Ref t} (front : e.node? = some r) (back : f.node? = some s)
      (lt : r.id < s.id) : Precedes e f

theorem DecodeError.exists_node {e : DecodeError t} (h : e.isDefect = false) :
    ∃ r, e.node? = some r := by
  obtain ⟨cause | defect, said⟩ := e
  · exact ⟨cause.node, rfl⟩
  · cases h

/-! ### Errors at the nodes of a list -/

/-- The nodes of a list are numbered in its order. -/
abbrev Ascending (nodes : List (Ref t)) : Prop := nodes.Pairwise fun r s => r.id < s.id

/-- The errors are at nodes of the list.  If these ascend then the errors are in order, but for
what stands behind a defect. -/
structure InOrder (nodes : List (Ref t)) (es : List (DecodeError t)) : Prop where
  located : ∀ e ∈ es, ∀ r, e.node? = some r → r ∈ nodes
  ordered : Ascending nodes → es.Pairwise fun e f => e.isDefect = false → Precedes e f

namespace InOrder

variable {nodes nodes' : List (Ref t)} {es es' : List (DecodeError t)} {e : DecodeError t}

theorem nil (nodes : List (Ref t)) : InOrder nodes [] := ⟨nofun, fun _ => .nil⟩

theorem single {r : Ref t} (he : e.node? = some r) (hr : r ∈ nodes) : InOrder nodes [e] := by
  refine ⟨fun f hf s hs => ?_, fun _ => List.pairwise_singleton _ e⟩
  obtain rfl := List.mem_singleton.1 hf
  rwa [← Option.some.inj (he.symm.trans hs)]

theorem defect (d : Defect) : InOrder nodes [.ofDefect d] := by
  refine ⟨fun f hf s hs => ?_, fun _ => List.pairwise_singleton _ _⟩
  obtain rfl := List.mem_singleton.1 hf
  cases hs

theorem mono (h : InOrder nodes es) (hsub : nodes.Sublist nodes') : InOrder nodes' es :=
  ⟨fun e he r hr => hsub.subset (h.located e he r hr), fun hs => h.ordered (hs.sublist hsub)⟩

theorem append (h : InOrder nodes es) (h' : InOrder nodes' es') :
    InOrder (nodes ++ nodes') (es ++ es') := by
  refine ⟨fun e he r hr => ?_, fun hascending => ?_⟩
  · rcases List.mem_append.1 he with he | he
    · exact List.mem_append_left _ (h.located e he r hr)
    · exact List.mem_append_right _ (h'.located e he r hr)
  · obtain ⟨hfront, hback, hlt⟩ := List.pairwise_append.1 hascending
    refine List.pairwise_append.2 ⟨h.ordered hfront, h'.ordered hback, ?_⟩
    intro e he f hf htext
    cases hdefect : f.isDefect with
    | true => exact .defect hdefect
    | false =>
        obtain ⟨r, hr⟩ := DecodeError.exists_node htext
        obtain ⟨s, hs⟩ := DecodeError.exists_node hdefect
        exact .nodes hr hs (hlt r (h.located e he r hr) s (h'.located f hf s hs))

end InOrder

/-! ### Repeated keys -/

/-- A key is listed with its node. -/
theorem keys_sublist_preorder : ∀ below : List (Rose (Ref t)),
    (Pass.keys below).Sublist (Rose.preorderAll below)
  | .node k cs :: v :: rest => by
      have hkeys : Pass.keys (.node k cs :: v :: rest) = k :: Pass.keys rest := by
        rw [Pass.keys, pairs_cons_cons]
        rfl
      rw [hkeys, Rose.preorderAll, Rose.preorder, Rose.preorderAll, List.cons_append]
      refine List.Sublist.cons_cons k ?_
      exact ((keys_sublist_preorder rest).trans (List.sublist_append_right _ _)).trans
        (List.sublist_append_right _ _)
  | [_] => List.nil_sublist _
  | [] => List.nil_sublist _

theorem ofRepeat_clash (target : Target) {m first key : Ref t} (h : m.Repeats first key) :
    (clash target first key).OfRepeat m first key :=
  ⟨h, _, rfl, rfl, rfl, rfl⟩

/-- The errors of keys of a mapping; what the recursion has passed is in front of them. -/
theorem inOrder_repeatErrors (target : Target) {m : Ref t} : ∀ {keys : List (Ref t)},
    keys.Sublist m.keys → InOrder keys (repeatErrors target keys)
  | [], _ => .nil []
  | key :: rest, hkeys => by
      have hrest := inOrder_repeatErrors target ((List.sublist_cons_self key rest).trans hkeys)
      have hrepeats : ∀ later ∈ rest.filter (fun later => later.value = key.value),
          later ∈ rest ∧ m.Repeats key later := by
        intro later hlater
        obtain ⟨hmem, hvalue⟩ := List.mem_filter.1 hlater
        exact ⟨hmem, ((List.singleton_sublist.2 hmem).cons_cons key).trans hkeys,
          (of_decide_eq_true hvalue).symm⟩
      rw [repeatErrors]
      constructor
      · intro e he r hr
        rcases List.mem_append.1 he with he | he
        · obtain ⟨later, hlater, rfl⟩ := List.mem_map.1 he
          obtain rfl : later = r := Option.some.inj hr
          exact List.mem_cons_of_mem key (hrepeats later hlater).1
        · exact List.mem_cons_of_mem key (hrest.located e he r hr)
      · intro hascending
        obtain ⟨hlt, hascending⟩ := List.pairwise_cons.1 hascending
        refine List.pairwise_append.2 ⟨?_, hrest.ordered hascending, ?_⟩
        · refine List.pairwise_map.2 ((hascending.filter _).imp_of_mem ?_)
          intro later later' hlater hlater' hid _
          exact .repeats (ofRepeat_clash target (hrepeats later hlater).2)
            (ofRepeat_clash target (hrepeats later' hlater').2) (.inr ⟨rfl, hid⟩)
        · intro e he f hf _
          obtain ⟨later, hlater, rfl⟩ := List.mem_map.1 he
          obtain ⟨first', later', horder, hvalue, rfl⟩ := mem_repeatErrors hf
          have hrepeats' : m.Repeats first' later' :=
            ⟨(horder.trans (List.sublist_cons_self key rest)).trans hkeys, hvalue⟩
          have hfirst : first' ∈ rest := horder.subset (by simp)
          exact .repeats (ofRepeat_clash target (hrepeats later hlater).2)
            (ofRepeat_clash target hrepeats') (.inl (hlt first' hfirst))

/-! ### What hangs below a node -/

section Below

variable {target element key value : Target} {layout : Layout}

theorem inOrder_itemErrors : ∀ {below : List (Rose (Ref t))},
    (∀ c ∈ below, ∀ target, InOrder c.preorder (errorsIn strict target c)) →
      InOrder (Rose.preorderAll below) (itemErrors strict element below)
  | [], _ => .nil _
  | item :: rest, h => by
      obtain ⟨hitem, hrest⟩ := List.forall_mem_cons.1 h
      rw [Rose.preorderAll, itemErrors]
      exact (hitem element).append (inOrder_itemErrors hrest)

theorem inOrder_entryErrors : ∀ {below : List (Rose (Ref t))},
    (∀ c ∈ below, ∀ target, InOrder c.preorder (errorsIn strict target c)) →
      InOrder (Rose.preorderAll below) (entryErrors strict key value below)
  | k :: v :: rest, h => by
      obtain ⟨hkey, hvalue, hrest⟩ := List.forall_mem_cons.1 h |>.imp_right List.forall_mem_cons.1
      rw [Rose.preorderAll, Rose.preorderAll, ← List.append_assoc, entryErrors]
      refine InOrder.append ?_ (inOrder_entryErrors hrest)
      split
      · exact (hvalue value).mono (List.sublist_append_right _ _)
      · exact (hkey key).mono (List.sublist_append_left _ _)
  | [_], _ => .nil _
  | [], _ => .nil _

theorem inOrder_fieldErrors : ∀ {below : List (Rose (Ref t))} {earlier : List (Ref t)},
    (∀ c ∈ below, ∀ target, InOrder c.preorder (errorsIn strict target c)) →
      InOrder (Rose.preorderAll below) (fieldErrors strict target layout earlier below)
  | k :: v :: rest, earlier, h => by
      obtain ⟨hkey, hvalue, hrest⟩ := List.forall_mem_cons.1 h |>.imp_right List.forall_mem_cons.1
      rw [Rose.preorderAll, Rose.preorderAll, ← List.append_assoc, fieldErrors]
      refine InOrder.append ?_ (inOrder_fieldErrors hrest)
      have hlisted : k.label ∈ k.preorder ++ v.preorder := by
        cases k
        exact List.mem_append_left _ List.mem_cons_self
      cases layout.lookup k.label.value with
      | none =>
          cases strict with
          | false => exact .nil _
          | true => exact .single rfl hlisted
      | some slot =>
          cases hfind : earlier.find? (layout.binds slot.id) with
          | some first =>
              simp only [hfind]
              exact .single rfl hlisted
          | none =>
              simp only [hfind]
              exact (hvalue slot.target).mono (List.sublist_append_right _ _)
  | [_], _, _ => .nil _
  | [], _, _ => .nil _

end Below

theorem inOrder_errorsIn : ∀ (r : Ref t) (target : Target),
    InOrder r.view.preorder (errorsIn strict target r.view) := by
  refine Ref.children_induction fun r ih target => ?_
  have hbelow : ∀ c ∈ r.children.map Ref.view, ∀ target,
      InOrder c.preorder (errorsIn strict target c) := List.forall_mem_map.2 ih
  have hpreorder : r.view.preorder = r :: Rose.preorderAll (r.children.map Ref.view) := by
    rw [r.view_eq, Rose.preorder]
  have hnode := nodeErrors strict target r
  generalize errorsIn strict target r.view = es at hnode
  rw [hpreorder]
  cases hnode with
  | none => exact .nil _
  | misfit => exact .single rfl List.mem_cons_self
  | defect => exact .defect _
  | items => exact (inOrder_itemErrors hbelow).mono (List.sublist_cons_self r _)
  | repeats hmap =>
      have hkeys := keys_sublist_preorder (r.children.map Ref.view)
      rw [Ref.keys_eq hmap] at hkeys
      exact (inOrder_repeatErrors target (List.Sublist.refl r.keys)).mono
        (hkeys.trans (List.sublist_cons_self r _))
  | entries => exact (inOrder_entryErrors hbelow).mono (List.sublist_cons_self r _)
  | fields => exact (inOrder_fieldErrors hbelow).mono (List.sublist_cons_self r _)

/-! ### Documents -/

/-- Nothing in front of the last element has the property. -/
theorem pairwise_upToFirst {α : Type} {stop : α → Bool} (xs : List α) :
    (upToFirst stop xs).Pairwise fun x _ => stop x = false := by
  induction xs with
  | nil => exact .nil
  | cons x xs ih =>
      rw [upToFirst]
      split
      · exact List.pairwise_singleton _ x
      · next hstop => exact List.pairwise_cons.2 ⟨fun _ _ => Bool.eq_false_iff.2 hstop, ih⟩

/-- Nodes of a document are listed in the order of their numbers. -/
theorem ascending_preorder {text : String} (h : parse text = .ok t) (r : Ref t) :
    Ascending r.view.preorder := by
  obtain ⟨node, -, rfl⟩ := exists_read_of_parse h
  obtain ⟨n, hids, -⟩ := below_ofRose r
  refine List.pairwise_map.1 ?_
  rw [hids]
  exact List.pairwise_lt_range'

/-- **Errors come in document order.**  Of two errors the first is no defect of a target, and it
precedes the other: that one is a defect, or both are at repeated keys of one mapping, or its
node comes later. -/
theorem decode_ordered {text : String} (h : parse text = .ok t) {options : Options}
    {target : Target} {es : List (DecodeError t)} (hes : decode options t target = .error es) :
    es.Pairwise fun e f => e.isDefect = false ∧ Precedes e f := by
  have hordered : (t.errors options.knownFields target).Pairwise
      fun e f => e.isDefect = false → Precedes e f := by
    rw [errors]
    cases t.root? with
    | none => exact .nil
    | some root => exact (inOrder_errorsIn root target).ordered (ascending_preorder h root)
  rw [← (decode_eq_error.1 hes).2]
  refine ((hordered.sublist (upToFirst_sublist _)).and (pairwise_upToFirst _)).imp ?_
  rintro e f ⟨hprecedes, hstops⟩
  obtain ⟨hdefect, -⟩ := Bool.or_eq_false_iff.1 hstops
  exact ⟨hdefect, hprecedes hdefect⟩

/-- Keys that are repeated crosswise, a text that is no number, and a field that is no field. -/
theorem decode_ordered_crosswise :
    ∃ t es target, parse "m:\n  a: 1\n  b: 2\n  b: 3\n  a: 4\nn: x\nd: y\n" = .ok t ∧
      target = Target.struct "s" [⟨"m", .map .string .int, [], false⟩, ⟨"n", .int, [], false⟩,
        ⟨"d", .struct "d" [⟨"k", .int, ["k"], false⟩], [], false⟩] ∧
      decode ⟨false, .collectAll⟩ t target = .error es ∧
      es.map DecodeError.message =
        ["line 5: mapping key \"a\" already defined at line 2",
          "line 4: mapping key \"b\" already defined at line 3",
          "line 6: cannot unmarshal !!str `x` into int", "duplicated key 'k' in struct d"] ∧
      es.Pairwise fun e f => e.isDefect = false ∧ Precedes e f := by
  have hread : Document.read "m:\n  a: 1\n  b: 2\n  b: 3\n  a: 4\nn: x\nd: y\n".toList = .ok
      (.node ⟨.map, "", 1, 1⟩ [Document.leaf .str ['m'] 1 1, .node ⟨.map, "", 2, 3⟩
        [Document.leaf .str ['a'] 2 3, Document.leaf .int ['1'] 2 6,
          Document.leaf .str ['b'] 3 3, Document.leaf .int ['2'] 3 6,
          Document.leaf .str ['b'] 4 3, Document.leaf .int ['3'] 4 6,
          Document.leaf .str ['a'] 5 3, Document.leaf .int ['4'] 5 6],
        Document.leaf .str ['n'] 6 1, Document.leaf .str ['x'] 6 4,
        Document.leaf .str ['d'] 7 1, Document.leaf .str ['y'] 7 4]) := by cbv
  have hparse := congrArg (Except.map Tree.ofRose) hread
  refine ⟨_, _, _, hparse, rfl, decode_eq_error.2 ⟨?_, rfl⟩, ?_,
    decode_ordered hparse (decode_eq_error.2 ⟨?_, rfl⟩)⟩
  · exact List.isEmpty_eq_false_iff.1 (by decide +kernel)
  · decide +kernel
  · exact List.isEmpty_eq_false_iff.1 (by decide +kernel)

end YamlDecode
