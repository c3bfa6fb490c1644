/-
What known fields add.

If keys without a field are errors, a pass finds these errors besides all others, and that
is all the difference.  It could be more: a mapping leaves out the value of an entry whose
key has an error, so an error within a key could hide errors within a value.  But keys of a
document are scalars, and what is wrong with a scalar is wrong either way.

So the two recursions agree node by node, up to those errors.  A pass stops at defects of a
target only, and so at the same error in both.
-/
import YamlDecode.Proofs.Decode.Errors
import YamlDecode.Proofs.Document.Formed

namespace YamlDecode

open YamlDecode.Tree

/-- Is the error that a key has no field? -/
def DecodeError.isUnknownField {t : Tree} (e : DecodeError t) : Bool :=
  e.text?.any (·.cause = .unknownField)

/-- The errors of an outcome; a value has none. -/
def errorsOf {ε α : Type} : Except (List ε) α → List ε
  | .ok _ => []
  | .error es => es

variable {t : Tree}

/-- The errors other than keys without a field. -/
def known (es : List (DecodeError t)) : List (DecodeError t) := es.filter (!·.isUnknownField)

/-! ### Leaving out errors -/

theorem known_append (es es' : List (DecodeError t)) : known (es ++ es') = known es ++ known es' :=
  List.filter_append _ _

theorem known_repeatErrors (target : Target) (keys : List (Ref t)) :
    known (repeatErrors target keys) = repeatErrors target keys := by
  induction keys with
  | nil => rfl
  | cons key rest ih =>
      have hclashes : known ((rest.filter fun later => later.value = key.value).map
          (clash target key)) = (rest.filter fun later => later.value = key.value).map
          (clash target key) := by
        refine List.filter_eq_self.2 ?_
        intro e he
        obtain ⟨later, -, rfl⟩ := List.mem_map.1 he
        rfl
      rw [repeatErrors, known_append, hclashes, ih]

theorem known_mappingErrors (target : Target) (below : List (Rose (Ref t)))
    (inside : List (DecodeError t)) :
    known (mappingErrors target below inside) = mappingErrors target below (known inside) := by
  unfold mappingErrors
  split
  · rfl
  · exact known_repeatErrors _ _

/-- A node of another tag than the one asked for has the same error either way. -/
theorem known_ofTag (tag : Tag) (r : Ref t) (target : Target) (es : List (DecodeError t)) :
    known (if r.tag = tag then es else [misfit r target]) =
      if r.tag = tag then known es else [misfit r target] := by
  split <;> rfl

theorem known_ofScalar (value : Option Json) (r : Ref t) (target : Target) :
    known (if value.isSome then [] else [misfit r target]) =
      if value.isSome then [] else [misfit r target] := by
  split <;> rfl

/-- What ends a list is not left out of it, so a list ends there as it did before. -/
theorem filter_upToFirst {α : Type} {stop keep : α → Bool}
    (h : ∀ x, stop x = true → keep x = true) (xs : List α) :
    (upToFirst stop xs).filter keep = upToFirst stop (xs.filter keep) := by
  induction xs with
  | nil => rfl
  | cons x xs ih =>
      by_cases hstop : stop x = true
      · have hkeep := h x hstop
        rw [upToFirst, if_pos hstop, List.filter_cons_of_pos hkeep, List.filter_cons_of_pos hkeep,
          upToFirst, if_pos hstop]
        rfl
      · rw [upToFirst, if_neg hstop]
        by_cases hkeep : keep x = true
        · rw [List.filter_cons_of_pos hkeep, List.filter_cons_of_pos hkeep, upToFirst,
            if_neg hstop, ih]
        · rw [List.filter_cons_of_neg hkeep, List.filter_cons_of_neg hkeep, ih]

theorem known_upToFirst (es : List (DecodeError t)) :
    known (upToFirst DecodeError.isDefect es) = upToFirst DecodeError.isDefect (known es) := by
  refine filter_upToFirst ?_ es
  rintro ⟨cause | defect, said⟩ hdefect
  · cases hdefect
  · rfl

/-! ### Two recursions -/

/-- What is wrong with a scalar is wrong either way. -/
theorem errorsIn_scalar {r : Rose (Ref t)} (h : r.label.tag.isContainer = false) (target : Target) :
    errorsIn false target r = errorsIn true target r := by
  rcases r with ⟨r, below⟩
  obtain ⟨hseq, hmap⟩ : r.tag ≠ .seq ∧ r.tag ≠ .map := Tag.ne_of_isContainer h
  simp only [errorsIn, if_neg hseq, if_neg hmap]

mutual

theorem errorsIn_lenient (target : Target) : ∀ r : Rose (Ref t),
    (r.map Ref.label).Every Formed → errorsIn false target r = known (errorsIn true target r)
  | .node r below, h => by
      have hbelow : ∀ c ∈ below, (c.map Ref.label).Every Formed := by
        intro c hc
        refine h.children _ ?_
        rw [Rose.children_map]
        exact List.mem_map_of_mem hc
      have hkeyed : r.tag = .map → Keyed (below.map (Rose.map Ref.label)) := by
        intro hmap
        rw [← Rose.children_node r below, ← Rose.children_map]
        exact (h.self.entries hmap).1
      rw [errorsIn, errorsIn]
      by_cases hnull : r.tag = .null
      · rw [if_pos hnull, if_pos hnull]
        rfl
      · rw [if_neg hnull, if_neg hnull]
        cases hshape : target.shape with
        | struct fields =>
            cases hlayout : target.layout with
            | error d => rfl
            | ok layout =>
                simp only
                rw [known_ofTag, known_mappingErrors,
                  fieldErrors_lenient target layout below [] hbelow]
        | sequence element =>
            simp only
            rw [known_ofTag, itemErrors_lenient element below hbelow]
        | map key value =>
            simp only
            rw [known_ofTag, known_mappingErrors]
            by_cases hmap : r.tag = .map
            · rw [if_pos hmap, if_pos hmap,
                entryErrors_lenient key value below (hkeyed hmap) hbelow]
            · rw [if_neg hmap, if_neg hmap]
        | any =>
            by_cases hseq : r.tag = .seq
            · rw [if_pos hseq, if_pos hseq]
              exact itemErrors_lenient target below hbelow
            · rw [if_neg hseq, if_neg hseq]
              by_cases hmap : r.tag = .map
              · rw [if_pos hmap, if_pos hmap, known_mappingErrors,
                  entryErrors_lenient target target below (hkeyed hmap) hbelow]
              · rw [if_neg hmap, if_neg hmap]
                exact (known_ofScalar _ r target).symm
        | bool | int | uint | float | string => exact (known_ofScalar _ r target).symm

theorem itemErrors_lenient (element : Target) : ∀ below : List (Rose (Ref t)),
    (∀ c ∈ below, (c.map Ref.label).Every Formed) →
      itemErrors false element below = known (itemErrors true element below)
  | [], _ => rfl
  | item :: rest, h => by
      rw [itemErrors, itemErrors, known_append, errorsIn_lenient element item (h item (by simp)),
        itemErrors_lenient element rest fun c hc => h c (by simp [hc])]

theorem entryErrors_lenient (key value : Target) : ∀ below : List (Rose (Ref t)),
    Keyed (below.map (Rose.map Ref.label)) → (∀ c ∈ below, (c.map Ref.label).Every Formed) →
      entryErrors false key value below = known (entryErrors true key value below)
  | k :: v :: rest, hkeyed, h => by
      rw [List.map_cons, List.map_cons] at hkeyed
      obtain ⟨hscalar, hmore⟩ : k.label.tag.isContainer = false ∧
          Keyed (rest.map (Rose.map Ref.label)) := by
        cases hkeyed with
        | cons scalar more =>
            rw [Rose.label_map] at scalar
            exact ⟨scalar, more⟩
      have hkey := errorsIn_lenient key k (h k (by simp))
      rw [errorsIn_scalar hscalar] at hkey
      rw [entryErrors, entryErrors, known_append, errorsIn_scalar hscalar,
        errorsIn_lenient value v (h v (by simp)),
        entryErrors_lenient key value rest hmore fun c hc => h c (by simp [hc])]
      cases herrors : errorsIn true key k with
      | nil => rfl
      | cons e es =>
          rw [herrors] at hkey
          exact congrArg (· ++ _) hkey
  | [_], _, _ => rfl
  | [], _, _ => rfl

theorem fieldErrors_lenient (target : Target) (layout : Layout) :
    ∀ (below : List (Rose (Ref t))) (earlier : List (Ref t)),
      (∀ c ∈ below, (c.map Ref.label).Every Formed) →
      fieldErrors false target layout earlier below =
        known (fieldErrors true target layout earlier below)
  | k :: v :: rest, earlier, h => by
      have hrest := fieldErrors_lenient target layout rest (earlier ++ [k.label])
        fun c hc => h c (by simp [hc])
      rw [fieldErrors, fieldErrors, known_append, hrest]
      refine congrArg (· ++ _) ?_
      cases layout.lookup k.label.value with
      | none => rfl
      | some slot =>
          cases hfind : earlier.find? (layout.binds slot.id) with
          | some first =>
              simp only [hfind]
              rfl
          | none =>
              simp only [hfind]
              exact errorsIn_lenient slot.target v (h v (by simp))
  | [_], _, _ => rfl
  | [], _, _ => rfl

end

/-! ### Documents -/

theorem errors_lenient {text : String} (h : parse text = .ok t) (target : Target) :
    t.errors false target = known (t.errors true target) := by
  rw [errors, errors]
  cases t.root? with
  | none => rfl
  | some root => exact errorsIn_lenient target root.view (parse_formed h root)

theorem errorsOf_decode (strict : Bool) (t : Tree) (target : Target) :
    errorsOf (decode ⟨strict, .collectAll⟩ t target) =
      upToFirst DecodeError.isDefect (t.errors strict target) := by
  rw [decode_collectAll]
  cases t.errors strict target with
  | nil => rfl
  | cons e es => rfl

/-- **Known fields only add errors that a key has no field.**  Without these the errors are the
same, in the same order; and what decodes with known fields decodes to the same value without. -/
theorem decode_knownFields {text : String} (h : parse text = .ok t) (target : Target) :
    errorsOf (decode ⟨false, .collectAll⟩ t target) =
        (errorsOf (decode ⟨true, .collectAll⟩ t target)).filter (!·.isUnknownField) ∧
      ∀ (policy : ErrorPolicy) (v : Json),
        decode ⟨true, policy⟩ t target = .ok v → decode ⟨false, policy⟩ t target = .ok v := by
  have hlenient := errors_lenient h target
  constructor
  · rw [errorsOf_decode, errorsOf_decode, hlenient]
    exact (known_upToFirst _).symm
  · intro policy v hv
    rw [decode_eq] at hv ⊢
    cases herrors : t.errors true target with
    | nil =>
        rw [herrors] at hv hlenient
        rwa [hlenient]
    | cons e es =>
        rw [herrors] at hv
        cases hv

/-- A service with a port that is no number and a key without a field. -/
theorem decode_knownFields_service :
    ∃ t target, parse "port: web\nname: x\n" = .ok t ∧
      target = Target.struct "service" [⟨"port", .uint, [], false⟩] ∧
      errorsOf (decode ⟨false, .collectAll⟩ t target) =
          (errorsOf (decode ⟨true, .collectAll⟩ t target)).filter (!·.isUnknownField) ∧
        ∀ (policy : ErrorPolicy) (v : Json),
          decode ⟨true, policy⟩ t target = .ok v → decode ⟨false, policy⟩ t target = .ok v := by
  have hread : Document.read "port: web\nname: x\n".toList = .ok
      (.node ⟨.map, "", 1, 1⟩ [Document.leaf .str "port".toList 1 1,
        Document.leaf .str "web".toList 1 7, Document.leaf .str "name".toList 2 1,
        Document.leaf .str "x".toList 2 7]) := by cbv
  have hparse := congrArg (Except.map Tree.ofRose) hread
  exact ⟨_, _, hparse, rfl, decode_knownFields hparse _⟩

end YamlDecode
