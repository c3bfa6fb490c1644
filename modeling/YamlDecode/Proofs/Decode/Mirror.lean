/-
A document decoded into no particular type is mirrored.

`Mirrors` says of a node and a value that the value is what the node says, with all that hangs
below it: a scalar is what its text spells under its tag, an array has an item for each child, and
an object has a member for each entry, with the text of the key as its name.

A tree built by hand need not be mirrored, since its tags may promise what its texts do not keep;
a number that cannot be read then comes out as a text.  In a document tags and texts agree
(`Label.Tagged`), so this does not occur, and the only thing that can go wrong is a mapping with
two keys of one text.  Both follow from what decoding does with a single node, upwards from the
children for the value and downwards from the root for the keys.
-/
import YamlDecode.Proofs.Decode.Listing
import YamlDecode.Proofs.Decode.Untyped
import YamlDecode.Proofs.Document.Address
import YamlDecode.Proofs.Document.Tagged
import YamlDecode.Proofs.Number.Numeral

namespace YamlDecode

open YamlDecode.Tree

variable {t : Tree} {strict : Bool} {name : String}

/-- The value is what the node says. -/
inductive Tree.Ref.Mirrors : Ref t → Json → Prop
  | null {r : Ref t} (tag : r.tag = .null) : Mirrors r .null
  | isTrue {r : Ref t} (tag : r.tag = .bool) (word : isTrueWord r.value.toList = true) :
      Mirrors r (.bool true)
  | isFalse {r : Ref t} (tag : r.tag = .bool) (word : isFalseWord r.value.toList = true) :
      Mirrors r (.bool false)
  | int {r : Ref t} {n : Int} (tag : r.tag = .int) (spelt : readInteger r.value.toList = some n) :
      Mirrors r (.int n)
  | float {r : Ref t} {d : Double} (tag : r.tag = .float)
      (spelt : Double.read r.value.toList = some d) : Mirrors r (.float d)
  | str {r : Ref t} (tag : r.tag = .str) : Mirrors r (.str r.value)
  | seq {r : Ref t} {items : List Json} (tag : r.tag = .seq)
      (each : List.Forall₂ Mirrors r.children items) : Mirrors r (.arr items)
  | map {r : Ref t} {members : List (String × Json)} (tag : r.tag = .map)
      (names : members.map Prod.fst = r.entries.map fun e => e.1.value)
      (distinct : (members.map Prod.fst).Nodup)
      (each : List.Forall₂ Mirrors (r.entries.map Prod.snd) (members.map Prod.snd)) :
      Mirrors r (.obj members)

/-! ### Scalars -/

/-- A scalar of a document is mirrored by what its tag and its text make of it. -/
theorem mirrors_untyped {r : Ref t} (htagged : r.label.Tagged)
    (hscalar : r.tag.isContainer = false) :
    ∃ v, untyped r.tag r.value = some v ∧ r.Mirrors v := by
  cases htag : r.tag with
  | null => exact ⟨.null, rfl, .null htag⟩
  | bool =>
      refine ⟨.bool (isTrueWord r.value.toList), rfl, ?_⟩
      cases hword : isTrueWord r.value.toList with
      | true => exact .isTrue htag hword
      | false =>
          have htrue : ¬isTrueWord r.label.value.toList = true := by
            rw [Bool.not_eq_true]
            exact hword
          exact .isFalse htag ((htagged.isTruth htag).resolve_left htrue)
  | int =>
      obtain ⟨n, hn⟩ := Option.isSome_iff_exists.1 (htagged.readWord htag)
      have hread : readWord r.value.toList = some n := hn
      refine ⟨.int n, ?_, .int htag (readInteger_of_readWord hread)⟩
      rw [untyped, hread]
      rfl
  | float =>
      obtain ⟨d, hd⟩ := Option.isSome_iff_exists.1 (htagged.readDouble htag)
      have hread : Double.read r.value.toList = some d := hd
      refine ⟨.float d, ?_, .float htag hread⟩
      rw [untyped, hread]
      rfl
  | str => exact ⟨.str r.value, rfl, .str htag⟩
  | seq | map =>
      rw [htag] at hscalar
      cases hscalar

/-! ### One node -/

theorem errorsIn_any_seq {r : Ref t} (h : r.tag = .seq) :
    errorsIn strict ⟨name, .any⟩ r.view = [] ↔
      ∀ c ∈ r.children, errorsIn strict ⟨name, .any⟩ c.view = [] := by
  rw [r.view_eq, errorsIn, if_neg (h ▸ nofun)]
  simp only [if_pos h]
  exact itemErrors_view r

theorem valueIn_any_seq {r : Ref t} (h : r.tag = .seq) :
    valueIn ⟨name, .any⟩ r.view = .arr (r.children.map fun c => valueIn ⟨name, .any⟩ c.view) := by
  rw [r.view_eq, valueIn, if_neg (h ▸ nofun)]
  simp only [if_pos h, itemValues_view]

theorem errorsIn_any_map {r : Ref t} (h : r.tag = .map) (heven : r.children.length % 2 = 0) :
    errorsIn strict ⟨name, .any⟩ r.view = [] ↔ (r.entries.map fun e => e.1.value).Nodup ∧
      ∀ c ∈ r.children, errorsIn strict ⟨name, .any⟩ c.view = [] := by
  rw [r.view_eq, errorsIn, if_neg (h ▸ nofun)]
  simp only [if_neg (show r.tag ≠ .seq from h ▸ nofun), if_pos h]
  rw [entryErrors_view h]
  refine and_congr_right' ?_
  rw [r.entries_of_map h]
  exact forall_pairs (P := fun c => errorsIn strict ⟨name, .any⟩ c.view = []) heven

theorem valueIn_any_map {r : Ref t} (h : r.tag = .map) :
    valueIn ⟨name, .any⟩ r.view =
      .obj (r.entries.map fun e => (e.1.value, valueIn ⟨name, .any⟩ e.2.view)) := by
  rw [r.view_eq, valueIn, if_neg (h ▸ nofun)]
  simp only [if_neg (show r.tag ≠ .seq from h ▸ nofun), if_pos h, entryValues_view h]

/-! ### All nodes -/

section Documents

variable (ht : t.Addressable) (htagged : ∀ r : Ref t, r.label.Tagged)

include ht htagged

/-- A node has no errors if none of its children has any and its keys, if it has any, are all
different. -/
theorem errorsIn_any_eq_nil {r : Ref t} :
    errorsIn strict ⟨name, .any⟩ r.view = [] ↔ (r.entries.map fun e => e.1.value).Nodup ∧
      ∀ c ∈ r.children, errorsIn strict ⟨name, .any⟩ c.view = [] := by
  by_cases hmap : r.tag = .map
  · exact errorsIn_any_map hmap (ht.even r hmap)
  · have hentries : r.entries = [] := if_neg hmap
    rw [hentries]
    by_cases hseq : r.tag = .seq
    · simp [errorsIn_any_seq hseq]
    · have hscalar := Tag.isContainer_of_ne hseq hmap
      obtain ⟨v, hv, -⟩ := mirrors_untyped (htagged r) hscalar
      have hnil : errorsIn strict ⟨name, .any⟩ r.view = [] := by
        rw [r.view_eq]
        exact (scalar_of_untyped rfl hv).1
      simp [hnil, ht.scalar r hscalar]

theorem mirrors_valueIn (hdistinct : t.DistinctKeys) : ∀ r : Ref t,
    r.Mirrors (valueIn ⟨name, .any⟩ r.view) := by
  refine Ref.children_induction fun r ih => ?_
  by_cases hmap : r.tag = .map
  · rw [valueIn_any_map hmap]
    refine .map hmap ?_ ?_ ?_
    · rw [List.map_map]
      rfl
    · rw [List.map_map]
      exact hdistinct r
    · rw [List.map_map, List.forall₂_map_left_iff, List.forall₂_map_right_iff, List.forall₂_same]
      rintro ⟨key, value⟩ hentry
      exact ih value (ht.linked.mem_children.2 (ht.places hentry).2.1)
  · by_cases hseq : r.tag = .seq
    · rw [valueIn_any_seq hseq]
      refine .seq hseq ?_
      rw [List.forall₂_map_right_iff, List.forall₂_same]
      exact ih
    · have hscalar := Tag.isContainer_of_ne hseq hmap
      obtain ⟨v, hv, hmirrors⟩ := mirrors_untyped (htagged r) hscalar
      have hvalue : errorsIn false ⟨name, .any⟩ r.view = [] ∧ valueIn ⟨name, .any⟩ r.view = v := by
        rw [r.view_eq]
        exact scalar_of_untyped rfl hv
      rwa [hvalue.2]

/-- The root has no errors exactly if no mapping holds two keys of one text. -/
theorem errorsIn_root_eq_nil {root : Ref t} (hroot : root.id = 0) :
    errorsIn strict ⟨name, .any⟩ root.view = [] ↔ t.DistinctKeys := by
  constructor
  · intro hnil m
    have hall : ∀ r : Ref t, errorsIn strict ⟨name, .any⟩ r.view = [] := by
      refine ht.linked.induction ht.rooted ?_ ?_
      · intro r hid
        rwa [Ref.eq_of_id (hid.trans hroot.symm)]
      · intro p c hc hp
        exact ((errorsIn_any_eq_nil ht htagged).1 hp).2 c hc
    exact ((errorsIn_any_eq_nil ht htagged).1 (hall m)).1
  · intro hdistinct
    have hall : ∀ r : Ref t, errorsIn strict ⟨name, .any⟩ r.view = [] :=
      Ref.children_induction fun r ih => (errorsIn_any_eq_nil ht htagged).2 ⟨hdistinct r, ih⟩
    exact hall root

end Documents

/-- **A document decodes into no particular type as it stands.**  It does so exactly if no mapping
holds two keys of one text, under all options; the value then mirrors the document, and no number
is left unread. -/
theorem decode_mirrors {text : String} (h : parse text = .ok t) (options : Options)
    (name : String) :
    ((∃ v, decode options t ⟨name, .any⟩ = .ok v) ↔ t.DistinctKeys) ∧
      (∀ v, decode options t ⟨name, .any⟩ = .ok v →
        ∃ root, t.root? = some root ∧ root.Mirrors v) ∧
      ∀ r : Ref t, (r.tag = .int → (readWord r.value.toList).isSome = true) ∧
        (r.tag = .float → (Double.read r.value.toList).isSome = true) := by
  have ht := parse_addressable h
  have htagged := parse_tagged h
  obtain ⟨node, -, rfl⟩ := exists_read_of_parse h
  obtain ⟨root, hroot, -⟩ := Tree.map_view_ofRose node
  have hnil : errorsIn options.knownFields ⟨name, .any⟩ root.view = [] ↔
      (ofRose node).DistinctKeys :=
    errorsIn_root_eq_nil ht htagged (Tree.root?_eq_some.1 hroot)
  have herrors : (ofRose node).errors options.knownFields ⟨name, .any⟩ =
      errorsIn options.knownFields ⟨name, .any⟩ root.view := by
    rw [Tree.errors, hroot]
  have hvalue : (ofRose node).decoded ⟨name, .any⟩ = valueIn ⟨name, .any⟩ root.view := by
    rw [Tree.decoded, hroot]
  refine ⟨?_, ?_, fun r => ⟨(htagged r).readWord, (htagged r).readDouble⟩⟩
  · rw [← hnil, ← herrors]
    constructor
    · rintro ⟨v, hv⟩
      exact (decode_eq_ok.1 hv).1
    · intro hempty
      exact ⟨_, decode_eq_ok.2 ⟨hempty, rfl⟩⟩
  · intro v hv
    obtain ⟨hempty, rfl⟩ := decode_eq_ok.1 hv
    rw [herrors] at hempty
    rw [hvalue]
    exact ⟨root, hroot, mirrors_valueIn ht htagged (hnil.1 hempty) root⟩

/-- Words of all kinds, quoted and not, as keys, as values and as items. -/
theorem decode_mirrors_words :
    ∃ t, parse "1: [-7, 2.5, '3']\n~: yes\nb: \x7btrue: null\x7d\n" = .ok t ∧ t.DistinctKeys ∧
      ((∃ v, decode ⟨true, .firstError⟩ t ⟨"any", .any⟩ = .ok v) ↔ t.DistinctKeys) ∧
      (∀ v, decode ⟨true, .firstError⟩ t ⟨"any", .any⟩ = .ok v →
        ∃ root, t.root? = some root ∧ root.Mirrors v) ∧
      ∀ r : Ref t, (r.tag = .int → (readWord r.value.toList).isSome = true) ∧
        (r.tag = .float → (Double.read r.value.toList).isSome = true) := by
  have hread : Document.read "1: [-7, 2.5, '3']\n~: yes\nb: \x7btrue: null\x7d\n".toList = .ok
      (.node ⟨.map, "", 1, 1⟩ [Document.leaf .int ['1'] 1 1, .node ⟨.seq, "", 1, 4⟩
          [Document.leaf .int ['-', '7'] 1 5, Document.leaf .float ['2', '.', '5'] 1 9,
            Document.leaf .str ['3'] 1 14],
        Document.leaf .null ['~'] 2 1, Document.leaf .str "yes".toList 2 4,
        Document.leaf .str ['b'] 3 1, .node ⟨.map, "", 3, 4⟩
          [Document.leaf .bool "true".toList 3 5, Document.leaf .null "null".toList 3 11]]) := by
    cbv
  have hparse := congrArg (Except.map Tree.ofRose) hread
  exact ⟨_, hparse, by decide +kernel, decode_mirrors hparse ⟨true, .firstError⟩ "any"⟩

end YamlDecode
