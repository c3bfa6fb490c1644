/-
What the evidence of an error tells.

An error at an unknown field has the field's name.  A key is bound twice in two ways: a mapping
holds it twice, or two different keys bind one field of a struct, and errors of the two kinds are
told apart by their names, since only those of the second have one.  `Telling` is this contract.

An empty name is kept as none, so the contract is broken where the key is the empty text, and only
there.  Such an error is `Silent`: it has no name, and if a field is bound twice its message is that
of a repeated key.  A repeated key that is empty is not silent, as it should have no name.

Which of the two kinds an error is of has to be read off the tree.  There it is not in doubt, since
a key stands in one mapping only, and that has either repeated keys or fields that are bound twice.
-/
import YamlDecode.Proofs.Decode.Origin
import YamlDecode.Proofs.Document.Address

namespace YamlDecode

open YamlDecode.Tree

variable {t : Tree}

/-! ### Keys of one mapping -/

theorem Tree.Ref.mem_children_of_mem_keys {m key : Ref t} (h : key ∈ m.keys) :
    key ∈ m.children := by
  obtain ⟨entry, hentry, rfl⟩ := List.mem_map.1 h
  rw [entries] at hentry
  split at hentry
  · exact (mem_of_mem_pairs hentry).1
  · cases hentry

/-- A key stands in one mapping. -/
theorem Tree.Linked.eq_of_mem_keys (h : t.Linked) {m m' key : Ref t} (hm : key ∈ m.keys)
    (hm' : key ∈ m'.keys) : m = m' := by
  have hparent := h.mem_children.1 (Ref.mem_children_of_mem_keys hm)
  have hparent' := h.mem_children.1 (Ref.mem_children_of_mem_keys hm')
  exact Option.some.inj (hparent.symm.trans hparent')

/-- A mapping with a repeated key does not have different keys only. -/
theorem Tree.Ref.Repeats.not_nodup {m first key : Ref t} (h : m.Repeats first key) :
    ¬ (m.keys.map Ref.value).Nodup := by
  intro hdistinct
  have hpair := List.pairwise_iff_forall_sublist.1 hdistinct (h.order.map Ref.value)
  exact hpair h.same

/-- The keys of a mapping are all different, and a key binds a field of a target that a key in
front of it binds too. -/
structure Tree.Ref.BindsAgain (m first key : Ref t) (target : Target) : Prop where
  distinct : (m.keys.map Ref.value).Nodup
  order : InFront first key m.keys
  field : ∃ layout slot, target.layout = .ok layout ∧ layout.lookup key.value = some slot ∧
    layout.binds slot.id first = true

/-- A key that binds a field again is not repeated. -/
theorem Tree.Linked.not_repeats (h : t.Linked) {m m' first first' key : Ref t} {target : Target}
    (hbinds : m.BindsAgain first key target) : ¬ m'.Repeats first' key := by
  intro hrepeats
  have hmem : key ∈ m.keys := hbinds.order.subset (by simp)
  have hmem' : key ∈ m'.keys := hrepeats.order.subset (by simp)
  obtain rfl := h.eq_of_mem_keys hmem hmem'
  exact hrepeats.not_nodup hbinds.distinct

/-! ### Evidence -/

namespace TextError

/-- The evidence of an error tells what the error is about. -/
structure Telling (x : TextError t) : Prop where
  /-- The name of an unknown field is the text of its key, and there is one. -/
  unknown : x.cause = .unknownField → x.node.value ≠ "" ∧ x.name = some x.node.value
  /-- If different keys bind one field then the later key is the name, and the message does not
  say where the earlier one stands. -/
  named : ∀ m first : Ref t, x.cause = .keyAlreadyDefined → m.BindsAgain first x.node x.target →
    x.name = some x.node.value ∧
      x.message = "line " ++ toString x.node.line ++ ": " ++
        ("field " ++ x.node.value ++ " already set in type " ++ x.target.name)
  /-- If there is no name then the mapping holds the key already, on the line that is kept. -/
  unnamed : x.cause = .keyAlreadyDefined → x.name = none → ∃ m first : Ref t,
    m.Repeats first x.node ∧ x.details.lookup priorLine = some (toString first.line)

/-- The error is about the empty key, as one that binds no field or binds one again. -/
structure Silent (x : TextError t) : Prop where
  empty : x.node.value = ""
  field : x.cause = .unknownField ∨
    x.cause = .keyAlreadyDefined ∧ ∃ m first : Ref t, m.BindsAgain first x.node x.target

end TextError

theorem nonEmpty_eq_some {s : String} : nonEmpty s = some s ↔ s ≠ "" := by
  unfold nonEmpty
  by_cases h : s = "" <;> simp [h]

theorem nonEmpty_eq_none {s : String} : nonEmpty s = none ↔ s = "" := by
  unfold nonEmpty
  by_cases h : s = "" <;> simp [h]

/-- The evidence tells what the error is about unless it is silent. -/
theorem Origin.telling_iff (hlinked : t.Linked) {whole : Target} {e : DecodeError t}
    (h : Origin whole e) {x : TextError t} (hx : e.text? = some x) : x.Telling ↔ ¬ x.Silent := by
  cases h with
  | @misfit r target part =>
      obtain rfl := Option.some.inj hx
      exact ⟨fun _ hsilent => by simpa using hsilent.field, fun _ => ⟨nofun, nofun, nofun⟩⟩
  | @unknownKey m key target layout part laidOut isKey free =>
      obtain rfl := Option.some.inj hx
      constructor
      · intro htelling hsilent
        exact (htelling.unknown rfl).1 hsilent.empty
      · intro hsilent
        have hne : key.value ≠ "" := fun hempty => hsilent ⟨hempty, .inl rfl⟩
        exact ⟨fun _ => ⟨hne, nonEmpty_eq_some.2 hne⟩, nofun, nofun⟩
  | @boundBefore m first key target layout slot part laidOut distinct order slotOf binds =>
      obtain rfl := Option.some.inj hx
      have hbinds : m.BindsAgain first key target :=
        ⟨distinct, order, layout, slot, laidOut, slotOf, binds⟩
      constructor
      · intro htelling hsilent
        exact nonEmpty_eq_some.1 (htelling.named m first rfl hbinds).1 hsilent.empty
      · intro hsilent
        have hne : key.value ≠ "" := fun hempty => hsilent ⟨hempty, .inr ⟨rfl, m, first, hbinds⟩⟩
        refine ⟨nofun, fun _ _ _ _ => ⟨nonEmpty_eq_some.2 hne, ?_⟩, fun _ hnone => ?_⟩
        · show render .keyAlreadyDefined key.label (nonEmpty key.value) target _ = _
          rw [nonEmpty_eq_some.2 hne]
          rfl
        · exact absurd (nonEmpty_eq_none.1 hnone) hne
  | @clash m first key target part repeated =>
      obtain rfl := Option.some.inj hx
      have hnever : ∀ m' first' : Ref t, ¬ m'.BindsAgain first' key target :=
        fun m' first' hbinds => hlinked.not_repeats hbinds repeated
      constructor
      · rintro - ⟨-, hcause | ⟨-, m', first', hbinds⟩⟩
        · cases hcause
        · exact hnever m' first' hbinds
      · intro _
        exact ⟨nofun, fun m' first' _ hbinds => absurd hbinds (hnever m' first'),
          fun _ _ => ⟨m, first, repeated, rfl⟩⟩
  | defect => cases hx

/--
**Evidence tells what an error is about, but for the empty key.**

An error at a node of a document has evidence that tells what it is about, unless it is at the
empty key and says that this binds no field, or binds one again.
-/
theorem decode_telling {text : String} (h : parse text = .ok t) {options : Options}
    {target : Target} {es : List (DecodeError t)} (hes : decode options t target = .error es) :
    ∀ e ∈ es, ∀ x, e.text? = some x → (x.Telling ↔ ¬ x.Silent) := by
  intro e he x hx
  obtain ⟨node, -, rfl⟩ := exists_read_of_parse h
  exact (origin_of_decode hes e he).telling_iff (linked_ofRose node).1 hx

/-- A field that is bound again by an alias, an unknown field and a repeated empty key. -/
theorem decode_telling_alias :
    ∃ t es target, parse "a: 1\nb: 2\nc: 3\nm:\n  \"\": 4\n  \"\": 5\n" = .ok t ∧
      target = Target.struct "s"
        [⟨"a", .int, ["b"], false⟩, ⟨"m", .map .string .int, [], false⟩] ∧
      decode ⟨true, .collectAll⟩ t target = .error es ∧
      es.map DecodeError.message =
        ["line 2: field b already set in type s", "line 3: field c not found in type s",
          "line 6: mapping key \"\" already defined at line 5"] ∧
      ∀ e ∈ es, ∀ x, e.text? = some x → (x.Telling ↔ ¬ x.Silent) := by
  have hread : Document.read "a: 1\nb: 2\nc: 3\nm:\n  \"\": 4\n  \"\": 5\n".toList = .ok
      (.node ⟨.map, "", 1, 1⟩ [Document.leaf .str ['a'] 1 1, Document.leaf .int ['1'] 1 4,
        Document.leaf .str ['b'] 2 1, Document.leaf .int ['2'] 2 4,
        Document.leaf .str ['c'] 3 1, Document.leaf .int ['3'] 3 4,
        Document.leaf .str ['m'] 4 1, .node ⟨.map, "", 5, 3⟩
          [Document.leaf .str [] 5 3, Document.leaf .int ['4'] 5 7,
            Document.leaf .str [] 6 3, Document.leaf .int ['5'] 6 7]]) := by cbv
  have hparse := congrArg (Except.map Tree.ofRose) hread
  refine ⟨_, _, _, hparse, rfl, decode_eq_error.2 ⟨?_, rfl⟩, ?_,
    decode_telling hparse (decode_eq_error.2 ⟨?_, rfl⟩)⟩
  · exact List.isEmpty_eq_false_iff.1 (by decide +kernel)
  · decide +kernel
  · exact List.isEmpty_eq_false_iff.1 (by decide +kernel)

/-- A field is bound again by the empty key: there is no name, although all keys are different. -/
theorem telling_emptyAlias :
    ∃ t es target, parse "a: 1\n\"\": 2\n" = .ok t ∧
      target = Target.struct "s" [⟨"a", .int, [""], false⟩] ∧
      decode ⟨false, .collectAll⟩ t target = .error es ∧
      es.map DecodeError.message = ["line 2: mapping key \"\" already defined at line 1"] ∧
      es.map (fun e => e.text?.map fun x => (x.cause, x.name)) =
        [some (.keyAlreadyDefined, none)] ∧
      t.DistinctKeys := by
  have hread : Document.read "a: 1\n\"\": 2\n".toList = .ok (.node ⟨.map, "", 1, 1⟩
      [Document.leaf .str ['a'] 1 1, Document.leaf .int ['1'] 1 4,
        Document.leaf .str [] 2 1, Document.leaf .int ['2'] 2 5]) := by cbv
  have hparse := congrArg (Except.map Tree.ofRose) hread
  refine ⟨_, _, _, hparse, rfl, decode_eq_error.2 ⟨?_, rfl⟩, ?_, ?_, ?_⟩
  · exact List.isEmpty_eq_false_iff.1 (by decide +kernel)
  · decide +kernel
  · decide +kernel
  · decide +kernel

end YamlDecode
