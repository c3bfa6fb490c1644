/-
Documents decoded into no particular type.

`Means` is how a labelled tree holds a value, whatever the lines and columns of its nodes:
a scalar by its tag and text, a sequence by its items, and a mapping by its entries, whose
keys are texts and all different.  A tree that means a value decodes to it, under all
options, and so does a document that is read as such a tree: this is what remains of
decoding for a statement about documents.
-/
import YamlDecode.Proofs.Decode.Errors
import YamlDecode.Proofs.Tree.Graft

namespace YamlDecode

mutual

/-- The tree means the value. -/
def Means : Rose Label → Json → Prop
  | .node l cs, .arr items => l.tag = .seq ∧ MeansItems cs items
  | .node l cs, .obj members =>
    l.tag = .map ∧ (members.map Prod.fst).Nodup ∧ MeansMembers cs members
  | .node l _, v => untyped l.tag l.value = some v

def MeansItems : List (Rose Label) → List Json → Prop
  | [], [] => True
  | c :: cs, v :: vs => Means c v ∧ MeansItems cs vs
  | _, _ => False

def MeansMembers : List (Rose Label) → List (String × Json) → Prop
  | [], [] => True
  | k :: c :: cs, (name, v) :: members =>
    (k.label.tag = .str ∧ k.label.value = name) ∧ Means c v ∧ MeansMembers cs members
  | _, _ => False

end

variable {t : Tree} {strict : Bool} {target : Target}

/-! ### What a tree means is what it decodes to -/

/-- A scalar is what its tag and its text make of it. -/
theorem scalar_of_untyped (hshape : target.shape = .any) {r : Tree.Ref t}
    {below : List (Rose (Tree.Ref t))} {v : Json} (h : untyped r.tag r.value = some v) :
    errorsIn strict target (.node r below) = [] ∧ valueIn target (.node r below) = v := by
  rw [errorsIn, valueIn, hshape]
  have hseq : r.tag ≠ .seq := by
    intro htag
    rw [htag] at h
    cases h
  have hmap : r.tag ≠ .map := by
    intro htag
    rw [htag] at h
    cases h
  by_cases hnull : r.tag = .null
  · rw [if_pos hnull, if_pos hnull]
    rw [hnull] at h
    exact ⟨rfl, Option.some.inj h⟩
  · have hscalar : scalarIn .any r.tag r.value = some v := h
    rw [if_neg hnull, if_neg hnull]
    simp only [hscalar, if_neg hseq, if_neg hmap]
    exact ⟨rfl, rfl⟩

theorem key_of_str (hshape : target.shape = .any) {k : Rose (Tree.Ref t)}
    (hk : k.label.tag = .str) :
    errorsIn strict target k = [] ∧ valueIn target k = .str k.label.value := by
  obtain ⟨r, below⟩ := k
  refine scalar_of_untyped hshape ?_
  rw [show r.tag = .str from hk]
  rfl

theorem map_value_keys : ∀ {below : List (Rose (Tree.Ref t))} {members : List (String × Json)},
    MeansMembers (Rose.mapAll Tree.Ref.label below) members →
      (Pass.keys below).map Tree.Ref.value = members.map Prod.fst
  | [], [], _ => rfl
  | [], _ :: _, h => h.elim
  | [_], [], h => h.elim
  | [_], _ :: _, h => h.elim
  | _ :: _ :: _, [], h => h.elim
  | k :: c :: below, (name, v) :: members, h => by
      obtain ⟨⟨-, hname⟩, -, hrest⟩ := h
      have hkeys : Pass.keys (k :: c :: below) = k.label :: Pass.keys below := by
        rw [Pass.keys, Tree.pairs_cons_cons]
        rfl
      rw [Rose.label_map] at hname
      rw [hkeys, List.map_cons, List.map_cons, map_value_keys hrest]
      exact congrArg (· :: _) hname

mutual

theorem decoded_of_means (hshape : target.shape = .any) : ∀ {v : Json} {r : Rose (Tree.Ref t)},
    Means (r.map Tree.Ref.label) v → errorsIn strict target r = [] ∧ valueIn target r = v
  | .arr items, .node r below, h => by
      rw [Rose.map, Means] at h
      obtain ⟨hseq, hitems⟩ := h
      have hnull : r.tag ≠ .null := by
        intro htag
        cases hseq.symm.trans htag
      obtain ⟨herrors, hvalues⟩ := itemsDecoded_of_means hshape hitems
      rw [errorsIn, valueIn, if_neg hnull, if_neg hnull, hshape]
      simp only [if_pos (show r.tag = .seq from hseq), hvalues]
      exact ⟨herrors, trivial⟩
  | .obj members, .node r below, h => by
      rw [Rose.map, Means] at h
      obtain ⟨hmap, hnodup, hmembers⟩ := h
      have hnull : r.tag ≠ .null := by
        intro htag
        cases hmap.symm.trans htag
      have hseq : r.tag ≠ .seq := by
        intro htag
        cases hmap.symm.trans htag
      obtain ⟨herrors, hvalues⟩ := membersDecoded_of_means hshape hmembers
      rw [errorsIn, valueIn, if_neg hnull, if_neg hnull, hshape]
      simp only [if_neg hseq, if_pos (show r.tag = .map from hmap), hvalues]
      refine ⟨mappingErrors_eq_nil.2 ⟨?_, herrors⟩, trivial⟩
      rw [map_value_keys hmembers]
      exact hnodup
  | .null, .node r below, h => scalar_of_untyped hshape h
  | .bool _, .node r below, h => scalar_of_untyped hshape h
  | .int _, .node r below, h => scalar_of_untyped hshape h
  | .float _, .node r below, h => scalar_of_untyped hshape h
  | .str _, .node r below, h => scalar_of_untyped hshape h

theorem itemsDecoded_of_means (hshape : target.shape = .any) :
    ∀ {items : List Json} {below : List (Rose (Tree.Ref t))},
      MeansItems (Rose.mapAll Tree.Ref.label below) items →
        itemErrors strict target below = [] ∧ itemValues target below = items
  | [], [], _ => ⟨rfl, rfl⟩
  | [], _ :: _, h => h.elim
  | _ :: _, [], h => h.elim
  | v :: items, c :: below, h => by
      obtain ⟨herrors, hvalue⟩ := decoded_of_means hshape h.1
      obtain ⟨herrors', hvalues⟩ := itemsDecoded_of_means hshape h.2
      rw [itemErrors, itemValues, herrors, herrors', hvalue, hvalues]
      exact ⟨rfl, rfl⟩

theorem membersDecoded_of_means (hshape : target.shape = .any) :
    ∀ {members : List (String × Json)} {below : List (Rose (Tree.Ref t))},
      MeansMembers (Rose.mapAll Tree.Ref.label below) members →
        entryErrors strict target target below = [] ∧ entryValues target target below = members
  | [], [], _ => ⟨by rw [entryErrors]; simp, by rw [entryValues]; simp⟩
  | _ :: _, [], h => h.elim
  | [], [_], h => h.elim
  | _ :: _, [_], h => h.elim
  | [], _ :: _ :: _, h => h.elim
  | (name, v) :: members, k :: c :: below, h => by
      obtain ⟨⟨hstr, hname⟩, hmeans, hrest⟩ := h
      rw [Rose.label_map] at hstr hname
      obtain ⟨hkey, hkeyValue⟩ := key_of_str hshape hstr
      obtain ⟨herrors, hvalue⟩ := decoded_of_means hshape hmeans
      obtain ⟨herrors', hvalues⟩ := membersDecoded_of_means hshape hrest
      have hmember : memberName k.label (.str k.label.value) = name := hname
      rw [entryErrors, entryValues, hkey, herrors, herrors', hkeyValue, hvalue, hvalues, hmember]
      exact ⟨rfl, rfl⟩

end

/-- A document that is read as a tree that means a value decodes to that value. -/
theorem unmarshal_of_means {text : String} {r : Rose Label} {v : Json} (options : Options)
    (hread : Document.read text.toList = .ok r) (hmeans : Means r v) :
    unmarshal options text .any = .ok v := by
  obtain ⟨root, hroot, hview⟩ := Tree.map_view_ofRose r
  rw [← hview] at hmeans
  have hdecoded : ∀ strict, errorsIn strict .any root.view = [] ∧ valueIn .any root.view = v :=
    fun _ => decoded_of_means rfl hmeans
  have hparse : parse text = .ok (Tree.ofRose r) := by
    rw [parse, hread]
    rfl
  have hdecode : decode options (Tree.ofRose r) .any = .ok v := by
    rw [decode_eq, Tree.errors, Tree.decoded, hroot]
    simp only [(hdecoded _).1, (hdecoded true).2]
    rfl
  rw [unmarshal, hparse]
  simp only [hdecode]

end YamlDecode
