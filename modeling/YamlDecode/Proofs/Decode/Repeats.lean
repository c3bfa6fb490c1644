/-
The keys that a mapping repeats, without a table.

`laterKeys` reads the keys from the last to the first and keeps a table of those it has
passed.  The table never says more than a look along the rest of the keys would, and
`laterKeys_eq` is that.  With it the errors that a pass records for repeated keys are
those of a plain recursion over the keys, `repeatErrors`, and there are none exactly if
the texts of the keys are all different.
-/
import YamlDecode.Proofs.Decode.Yields

namespace YamlDecode

namespace Tree

/-! ### Pairs -/

private theorem pairs_go {α : Type} :
    ∀ (xs : List α) (done : List (α × α)), pairs.go done xs = done.reverse ++ pairs.go [] xs
  | [], done => by simp [pairs.go]
  | [_], done => by simp [pairs.go]
  | x :: y :: rest, done => by
      rw [pairs.go, pairs.go, pairs_go rest, pairs_go rest [(x, y)]]
      simp

@[simp] theorem pairs_nil {α : Type} : pairs ([] : List α) = [] := rfl

@[simp] theorem pairs_singleton {α : Type} (x : α) : pairs [x] = [] := rfl

@[simp] theorem pairs_cons_cons {α : Type} (x y : α) (rest : List α) :
    pairs (x :: y :: rest) = (x, y) :: pairs rest := by
  rw [pairs, pairs.go, pairs_go]
  rfl

variable {t : Tree}

/-! ### What the table holds -/

/-- Each key with the later ones of the same text. -/
def followers : List (Ref t) → List (Ref t × List (Ref t))
  | [] => []
  | key :: rest => (key, rest.filter fun k => k.value = key.value) :: followers rest

theorem laterKeys_eq (keys : List (Ref t)) :
    (laterKeys keys).1 = followers keys ∧
      ∀ text, (laterKeys keys).2.getD text [] = keys.filter fun k => k.value = text := by
  induction keys with
  | nil => exact ⟨rfl, fun _ => rfl⟩
  | cons key rest ih =>
      obtain ⟨hfound, htable⟩ := ih
      have hcons : laterKeys (key :: rest) =
          ((key, (laterKeys rest).2.getD key.value []) :: (laterKeys rest).1,
            (laterKeys rest).2.insert key.value
              (key :: (laterKeys rest).2.getD key.value [])) := rfl
      rw [hcons, hfound, htable, followers]
      refine ⟨rfl, ?_⟩
      intro text
      show (Std.TreeMap.insert _ _ _).getD text [] = _
      rw [Std.TreeMap.getD_insert, htable]
      by_cases h : key.value = text
      · rw [if_pos (Std.LawfulEqCmp.compare_eq_iff_eq.2 h), List.filter_cons_of_pos (by simpa using h),
          h]
      · rw [if_neg fun hc => h (Std.LawfulEqCmp.compare_eq_iff_eq.1 hc),
          List.filter_cons_of_neg (by simpa using h)]

theorem repeats_eq (keys : List (Ref t)) :
    repeats keys = (followers keys).filter fun (_, later) => !later.isEmpty := by
  rw [repeats, (laterKeys_eq keys).1]

theorem repeats_eq_nil (keys : List (Ref t)) :
    repeats keys = [] ↔ (keys.map Ref.value).Nodup := by
  rw [repeats_eq]
  induction keys with
  | nil => simp [followers]
  | cons key rest ih =>
      rw [List.map_cons, List.nodup_cons, ← ih, followers, List.filter_cons]
      by_cases h : key.value ∈ rest.map Ref.value
      · obtain ⟨k, hk, hkey⟩ := List.mem_map.1 h
        have hne : (rest.filter fun k => k.value = key.value) ≠ [] := by
          intro hnil
          have := List.filter_eq_nil_iff.1 hnil k hk
          simp [hkey] at this
        simp [h, hne]
      · have hnil : (rest.filter fun k => k.value = key.value) = [] := by
          refine List.filter_eq_nil_iff.2 ?_
          intro k hk
          have : k.value ≠ key.value := fun hkey => h (List.mem_map.2 ⟨k, hk, hkey⟩)
          simpa using this
        simp [h, hnil]

end Tree

open YamlDecode.Tree

variable {t : Tree} (options : Options) (target : Target)

/-! ### The errors of repeated keys -/

/-- The error of a key that stands on an earlier line already. -/
def clash (target : Target) (key later : Ref t) : DecodeError t :=
  .alreadyDefined (remark .keyAlreadyDefined later.label "" target (some key.line)) later target ""
    key.line

/-- One error for each two keys of one text, the earlier ones first. -/
def repeatErrors (target : Target) : List (Ref t) → List (DecodeError t)
  | [] => []
  | key :: rest =>
    (rest.filter fun later => later.value = key.value).map (clash target key)
      ++ repeatErrors target rest

theorem repeatErrors_eq_nil (keys : List (Ref t)) :
    repeatErrors target keys = [] ↔ (keys.map Ref.value).Nodup := by
  induction keys with
  | nil => simp [repeatErrors]
  | cons key rest ih =>
      rw [List.map_cons, List.nodup_cons, ← ih, repeatErrors, List.append_eq_nil_iff,
        List.map_eq_nil_iff, List.filter_eq_nil_iff]
      simp

namespace Pass

variable {options target}

theorem yields_recordLater (key : Ref t) (later : List (Ref t)) :
    Yields options (recordLater options target key later) (later.map (clash target key)) () := by
  induction later with
  | nil => exact yields_pure ()
  | cons k rest ih => exact yields_record_then _ ih

theorem yields_recordRepeats (found : List (Ref t × List (Ref t))) :
    Yields options (recordRepeats options target found)
      (found.flatMap fun (key, later) => later.map (clash target key)) () := by
  induction found with
  | nil => exact yields_pure ()
  | cons f rest ih =>
      rw [List.flatMap_cons]
      exact (yields_recordLater f.1 f.2).bind fun _ => ih

/-- A key without repetitions has no errors, so the table may leave it out. -/
private theorem flatMap_repeats (keys : List (Ref t)) :
    (repeats keys).flatMap (fun (key, later) => later.map (clash target key)) =
      repeatErrors target keys := by
  rw [repeats_eq]
  induction keys with
  | nil => rfl
  | cons key rest ih =>
      rw [followers, repeatErrors, List.filter_cons, ← ih]
      cases rest.filter fun later => later.value = key.value <;> simp

/-- The pairs that the table finds are recorded as the errors of the recursion. -/
theorem yields_repeats (keys : List (Ref t)) :
    Yields options (recordRepeats options target (repeats keys)) (repeatErrors target keys) () := by
  rw [← flatMap_repeats]
  exact yields_recordRepeats _

/-- A mapping is gone into only if its keys are all different. -/
theorem yields_unlessRepeated {below : List (Rose (Ref t))} {go : Pass t Json}
    {es : List (DecodeError t)} {v : Json} (hgo : Yields options go es v) :
    Yields options (unlessRepeated options target below go)
      (if ((keys below).map Ref.value).Nodup then es else repeatErrors target (keys below)) v := by
  unfold unlessRepeated
  split
  · next hnil =>
    rw [if_pos ((repeats_eq_nil _).1 hnil)]
    exact hgo
  · next hne =>
    have hrep : ¬((keys below).map Ref.value).Nodup := fun h => hne ((repeats_eq_nil _).2 h)
    have hes : repeatErrors target (keys below) ≠ [] :=
      fun h => hrep ((repeatErrors_eq_nil target _).1 h)
    rw [if_neg hrep]
    -- There is an error, so the null in the place of the mapping is not to be seen.
    have hrec : Yields options (recordRepeats options target (repeats (keys below)))
        (repeatErrors target (keys below)) () := yields_repeats _
    have h := hrec.bind (g := fun _ => Json.null) fun _ => yields_pure Json.null
    rw [List.append_nil] at h
    exact h.of_ne_nil hes

end Pass

end YamlDecode
