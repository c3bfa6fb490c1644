/-
The errors of a tree, without a pass.

`errorsIn` goes down a tree as a pass does, but nothing is handed along: the errors of a
node are made of the node, its target and the errors of what hangs below it.  `valueIn`
is what the node decodes to if it has none.  `assign_yields` says that a pass records
just these errors, up to the first one that ends it, and gives just this value, wherever
in a document the node stands and whatever went wrong before it.

So siblings do not influence each other, and a null in the place of something that could
not be filled never comes out, since then there is an error.

The induction is on the tree and follows `assign` case by case; the items and the entries
below a node come with it.
-/
import YamlDecode.Proofs.Decode.Repeats
import YamlDecode.Decode

namespace YamlDecode

variable {t : Tree}

open Pass (keys)

/-! ### Errors and values by recursion -/

/-- The error of a node whose tag or text does not fit. -/
def misfit (r : Tree.Ref t) (target : Target) : DecodeError t :=
  .wrongType (remark .wrongType r.label "" target none) r target

/-- The error of a key that binds no field. -/
def unknownKey (key : Tree.Ref t) (target : Target) : DecodeError t :=
  .unknownField (remark .unknownField key.label key.value target none) key target key.value

/-- The error of a key that binds a field which the key `first` has bound already. -/
def boundBefore (key first : Tree.Ref t) (target : Target) : DecodeError t :=
  .alreadyDefined (remark .keyAlreadyDefined key.label key.value target (some first.line)) key
    target key.value first.line

/-- Does the key bind the field of a number? -/
def Layout.binds (layout : Layout) (id : Nat) (key : Tree.Ref t) : Bool :=
  (layout.lookup key.value).any fun slot => slot.id = id

/-- The errors of a mapping: its repeated keys, or else those of its entries. -/
def mappingErrors (target : Target) (below : List (Rose (Tree.Ref t)))
    (inside : List (DecodeError t)) : List (DecodeError t) :=
  if ((keys below).map Tree.Ref.value).Nodup then inside else repeatErrors target (keys below)

theorem mappingErrors_eq_nil {target : Target} {below : List (Rose (Tree.Ref t))}
    {inside : List (DecodeError t)} :
    mappingErrors target below inside = [] ↔
      ((keys below).map Tree.Ref.value).Nodup ∧ inside = [] := by
  unfold mappingErrors
  by_cases h : ((keys below).map Tree.Ref.value).Nodup
  · simp [h]
  · simp [h, repeatErrors_eq_nil]

mutual

/-- The errors of a node in a target; `strict` says whether keys without a field are errors. -/
def errorsIn (strict : Bool) (target : Target) : Rose (Tree.Ref t) → List (DecodeError t)
  | .node r below =>
    if r.tag = .null then []
    else
      match target.shape with
      | .struct _ =>
        match target.layout with
        | .error d => [.ofDefect d]
        | .ok layout =>
          if r.tag = .map then mappingErrors target below (fieldErrors strict target layout [] below)
          else [misfit r target]
      | .sequence element =>
        if r.tag = .seq then itemErrors strict element below else [misfit r target]
      | .map key value =>
        if r.tag = .map then mappingErrors target below (entryErrors strict key value below)
        else [misfit r target]
      | .any =>
        if r.tag = .seq then itemErrors strict target below
        else if r.tag = .map then
          mappingErrors target below (entryErrors strict target target below)
        else if (scalarIn .any r.tag r.value).isSome then [] else [misfit r target]
      | shape => if (scalarIn shape r.tag r.value).isSome then [] else [misfit r target]

/-- The errors of the items of a sequence, one after the other. -/
def itemErrors (strict : Bool) (element : Target) :
    List (Rose (Tree.Ref t)) → List (DecodeError t)
  | [] => []
  | item :: rest => errorsIn strict element item ++ itemErrors strict element rest

/-- The errors of the entries of a mapping, of each its key's or else its value's. -/
def entryErrors (strict : Bool) (key value : Target) :
    List (Rose (Tree.Ref t)) → List (DecodeError t)
  | k :: v :: rest =>
    let ofKey := errorsIn strict key k
    let ofValue := errorsIn strict value v
    (if ofKey.isEmpty then ofValue else ofKey) ++ entryErrors strict key value rest
  | _ => []

/-- The errors of the entries of a mapping in the fields of a struct; `earlier` are the keys
in front of them. -/
def fieldErrors (strict : Bool) (target : Target) (layout : Layout) (earlier : List (Tree.Ref t)) :
    List (Rose (Tree.Ref t)) → List (DecodeError t)
  | k :: v :: rest =>
    let key := k.label
    (match layout.lookup key.value with
      | none => if strict then [unknownKey key target] else []
      | some slot =>
        match earlier.find? (layout.binds slot.id) with
        | some first => [boundBefore key first target]
        | none => errorsIn strict slot.target v)
      ++ fieldErrors strict target layout (earlier ++ [key]) rest
  | _ => []

end

/-- The name of the member for a key, from what the key decodes to. -/
def memberName (key : Tree.Ref t) : Json → String
  | .str s => s
  | _ => key.value

mutual

/-- What a node without errors is in a target. -/
def valueIn (target : Target) : Rose (Tree.Ref t) → Json
  | .node r below =>
    if r.tag = .null then .null
    else
      match target.shape with
      | .struct _ =>
        match target.layout with
        | .error _ => .null
        | .ok layout => .obj (fieldValues layout below)
      | .sequence element => .arr (itemValues element below)
      | .map key value => .obj (entryValues key value below)
      | .any =>
        if r.tag = .seq then .arr (itemValues target below)
        else if r.tag = .map then .obj (entryValues target target below)
        else (scalarIn .any r.tag r.value).getD .null
      | shape => (scalarIn shape r.tag r.value).getD .null

def itemValues (element : Target) : List (Rose (Tree.Ref t)) → List Json
  | [] => []
  | item :: rest => valueIn element item :: itemValues element rest

def entryValues (key value : Target) : List (Rose (Tree.Ref t)) → List (String × Json)
  | k :: v :: rest =>
    (memberName k.label (valueIn key k), valueIn value v) :: entryValues key value rest
  | _ => []

/-- The members of a struct; keys that bind no field have none. -/
def fieldValues (layout : Layout) : List (Rose (Tree.Ref t)) → List (String × Json)
  | k :: v :: rest =>
    match layout.lookup k.label.value with
    | none => fieldValues layout rest
    | some slot => (slot.key, valueIn slot.target v) :: fieldValues layout rest
  | _ => []

end

/-! ### What a pass does with a node -/

namespace Pass

variable {options : Options}

theorem yields_wrongType (r : Tree.Ref t) (target : Target) (v : Json) :
    Yields options (wrongType options r target) [misfit r target] v :=
  yields_record_then _ (yields_pure Json.null)

theorem yields_scalar (shape : Shape) (r : Tree.Ref t) (target : Target) :
    Yields options
      (match scalarIn shape r.tag r.value with
        | some v => pure v
        | none => wrongType options r target)
      (if (scalarIn shape r.tag r.value).isSome then [] else [misfit r target])
      ((scalarIn shape r.tag r.value).getD .null) := by
  cases scalarIn shape r.tag r.value with
  | none => exact yields_wrongType r target _
  | some v => exact yields_pure v

/-- A step that goes into a node of one tag only. -/
theorem yields_ofTag (tag : Tag) (r : Tree.Ref t) (target : Target) {p : Pass t Json}
    {es : List (DecodeError t)} {v : Json} (hp : Yields options p es v) :
    Yields options (if r.tag = tag then p else wrongType options r target)
      (if r.tag = tag then es else [misfit r target]) v := by
  by_cases h : r.tag = tag
  · rw [if_pos h, if_pos h]
    exact hp
  · rw [if_neg h, if_neg h]
    exact yields_wrongType r target v

/-- What is bound so far is what the keys in front bind, each field by the first of them. -/
def Bound (layout : Layout) (bound : List (Nat × Nat)) (earlier : List (Tree.Ref t)) : Prop :=
  ∀ id, bound.lookup id = (earlier.find? (layout.binds id)).map Tree.Ref.line

section Bound

variable {layout : Layout} {bound : List (Nat × Nat)} {earlier : List (Tree.Ref t)}
  {key : Tree.Ref t}

theorem Bound.nil : Bound layout [] ([] : List (Tree.Ref t)) := fun _ => rfl

/-- A key changes nothing if it binds no field, or one that was bound before. -/
theorem Bound.skip (h : Bound layout bound earlier)
    (hkey : ∀ id, layout.binds id key = true → (earlier.find? (layout.binds id)).isSome) :
    Bound layout bound (earlier ++ [key]) := by
  intro id
  rw [h id, List.find?_append]
  cases hfind : earlier.find? (layout.binds id) with
  | some first => rfl
  | none =>
      have hno : layout.binds id key = false := by
        cases hbinds : layout.binds id key with
        | false => rfl
        | true =>
            have := hkey id hbinds
            rw [hfind] at this
            cases this
      simp [hno]

theorem Bound.cons {slot : Slot} (h : Bound layout bound earlier)
    (hslot : layout.lookup key.value = some slot)
    (hfresh : earlier.find? (layout.binds slot.id) = none) :
    Bound layout ((slot.id, key.line) :: bound) (earlier ++ [key]) := by
  intro id
  have hbinds : layout.binds id key = decide (slot.id = id) := by
    rw [Layout.binds, hslot]
    rfl
  rw [List.find?_append, List.lookup_cons]
  by_cases hid : slot.id = id
  · subst hid
    simp [hfresh, hbinds]
  · have hne : (id == slot.id) = false := by simpa using fun hc : id = slot.id => hid hc.symm
    rw [hne, h id]
    simp [hbinds, hid]

end Bound

mutual

theorem assign_yields (target : Target) : ∀ r : Rose (Tree.Ref t),
    Yields options (assign options target r) (errorsIn options.knownFields target r)
      (valueIn target r)
  | .node r below => by
      rw [assign, walk, silent, pure_bind, errorsIn, valueIn]
      by_cases hnull : r.tag = .null
      · rw [if_pos hnull, if_pos hnull, if_pos hnull]
        exact yields_pure _
      · rw [if_neg hnull, if_neg hnull, if_neg hnull]
        cases hshape : target.shape with
        | struct fields =>
            cases hlayout : target.layout with
            | error d => exact yields_record_then _ (yields_pure Json.null)
            | ok layout =>
                have hfields := walkFields_yields target layout below [] [] [] .nil
                exact yields_ofTag .map r target (yields_unlessRepeated (hfields.map Json.obj))
        | sequence element =>
            exact yields_ofTag .seq r target ((walkItems_yields element below []).map Json.arr)
        | map key value =>
            have hentries := walkEntries_yields key value below []
            exact yields_ofTag .map r target (yields_unlessRepeated (hentries.map Json.obj))
        | any =>
            by_cases hseq : r.tag = .seq
            · rw [if_pos hseq, if_pos hseq, if_pos hseq]
              exact (walkItems_yields target below []).map Json.arr
            · rw [if_neg hseq, if_neg hseq, if_neg hseq]
              by_cases hmap : r.tag = .map
              · rw [if_pos hmap, if_pos hmap, if_pos hmap]
                exact yields_unlessRepeated ((walkEntries_yields target target below []).map
                  Json.obj)
              · rw [if_neg hmap, if_neg hmap, if_neg hmap]
                exact yields_scalar .any r target
        | bool | int | uint | float | string => exact yields_scalar _ r target

theorem walkItems_yields (element : Target) : ∀ (below : List (Rose (Tree.Ref t)))
    (done : List Json),
    Yields options (walkItems options silent element done below)
      (itemErrors options.knownFields element below) (done.reverse ++ itemValues element below)
  | [], done => by
      rw [walkItems, itemErrors, itemValues, List.append_nil]
      exact yields_pure _
  | item :: rest, done => by
      rw [walkItems, itemErrors, itemValues]
      have h := (assign_yields element item).bind fun v => walkItems_yields element rest (v :: done)
      rwa [List.reverse_cons, List.append_assoc] at h

theorem walkEntries_yields (key value : Target) : ∀ (below : List (Rose (Tree.Ref t)))
    (done : List (String × Json)),
    Yields options (walkEntries options silent key value done below)
      (entryErrors options.knownFields key value below)
      (done.reverse ++ entryValues key value below)
  | k :: v :: rest, done => by
      rw [walkEntries, entryErrors, entryValues]
      have hskip := walkEntries_yields key value rest done
      have hgo : ∀ decodedKey : Json, Yields options
          (do
            let decoded ← assign options value v
            walkEntries options silent key value ((memberName k.label decodedKey, decoded) :: done)
              rest)
          (errorsIn options.knownFields value v ++ entryErrors options.knownFields key value rest)
          (done.reverse ++
            (memberName k.label decodedKey, valueIn value v) :: entryValues key value rest) := by
        intro decodedKey
        have h := (assign_yields value v).bind fun decoded =>
          walkEntries_yields key value rest ((memberName k.label decodedKey, decoded) :: done)
        rwa [List.reverse_cons, List.append_assoc] at h
      have h := yields_guarded (assign_yields key k) hskip hgo
      cases hkey : errorsIn options.knownFields key k with
      | nil => rwa [hkey] at h
      | cons e es => rwa [hkey] at h
  | [_], done => by
      rw [walkEntries, entryErrors, entryValues, List.append_nil]
      exact yields_pure _
      all_goals simp
  | [], done => by
      rw [walkEntries, entryErrors, entryValues, List.append_nil]
      exact yields_pure _
      all_goals simp

theorem walkFields_yields (target : Target) (layout : Layout) :
    ∀ (below : List (Rose (Tree.Ref t))) (bound : List (Nat × Nat)) (earlier : List (Tree.Ref t))
      (done : List (String × Json)), Bound layout bound earlier →
      Yields options (walkFields options silent target layout bound done below)
        (fieldErrors options.knownFields target layout earlier below)
        (done.reverse ++ fieldValues layout below)
  | k :: v :: rest, bound, earlier, done, h => by
      rw [walkFields, fieldErrors, fieldValues]
      cases hslot : layout.lookup k.label.value with
      | none =>
          have hrest := walkFields_yields target layout rest bound (earlier ++ [k.label]) done
            (h.skip fun id hid => by simp [Layout.binds, hslot] at hid)
          cases hstrict : options.knownFields with
          | false =>
              rw [hstrict] at hrest
              exact hrest
          | true =>
              rw [hstrict] at hrest
              exact yields_record_then _ hrest
      | some slot =>
          have hbound := h slot.id
          cases hfind : earlier.find? (layout.binds slot.id) with
          | some first =>
              rw [hfind] at hbound
              have hrest := walkFields_yields target layout rest bound (earlier ++ [k.label]) done
                (h.skip fun id hid => by
                  obtain rfl : slot.id = id := by simpa [Layout.binds, hslot] using hid
                  rw [hfind]
                  rfl)
              simp only [hbound, hfind, Option.map_some]
              exact yields_record_then _ hrest
          | none =>
              rw [hfind] at hbound
              have h := (assign_yields slot.target v).bind fun decoded =>
                walkFields_yields target layout rest ((slot.id, k.label.line) :: bound)
                  (earlier ++ [k.label]) ((slot.key, decoded) :: done) (h.cons hslot hfind)
              simp only [hbound, hfind, Option.map_none]
              rwa [List.reverse_cons, List.append_assoc] at h
  | [_], _, _, done, _ => by
      rw [walkFields, fieldErrors, fieldValues, List.append_nil]
      exact yields_pure _
      all_goals simp
  | [], _, _, done, _ => by
      rw [walkFields, fieldErrors, fieldValues, List.append_nil]
      exact yields_pure _
      all_goals simp

end

end Pass

/-! ### Whole trees -/

/-- The errors of a tree in a target; a tree without nodes has none. -/
def Tree.errors (strict : Bool) (t : Tree) (target : Target) : List (DecodeError t) :=
  match t.root? with
  | none => []
  | some root => errorsIn strict target root.view

/-- What a tree without errors is in a target. -/
def Tree.decoded (t : Tree) (target : Target) : Json :=
  match t.root? with
  | none => .null
  | some root => valueIn target root.view

theorem Pass.result_eq {options : Options} {p : Pass t Json} {es : List (DecodeError t)} {v : Json}
    (h : Yields options p es v) :
    p.result = if es.isEmpty then .ok v else .error (upToFirst (stops options) es) := by
  obtain ⟨o, hrun, -, hval⟩ := h #[]
  have hnil : (upToFirst (stops options) es).isEmpty = es.isEmpty := by
    rw [Bool.eq_iff_iff, List.isEmpty_iff, List.isEmpty_iff, upToFirst_eq_nil]
  rw [result, hrun]
  simp only [Array.empty_append, List.isEmpty_toArray, hnil]
  cases es with
  | nil =>
      obtain rfl := hval rfl
      rfl
  | cons e es => rfl

/-- A node decodes to a value if it has no errors. -/
theorem result_assign_eq_ok {options : Options} {target : Target} {r : Rose (Tree.Ref t)}
    {v : Json} :
    (Pass.assign options target r).result = .ok v ↔
      errorsIn options.knownFields target r = [] ∧ valueIn target r = v := by
  rw [Pass.result_eq (Pass.assign_yields target r), ← List.isEmpty_iff]
  split
  · next hempty => simp [hempty]
  · next hempty => simp [hempty]

/-- Wherever a pass meets a node, whatever it has recorded, it decodes the node as by itself. -/
theorem run_assign_eq_iff {options : Options} {target : Target} {r : Rose (Tree.Ref t)} {v : Json}
    (s : Array (DecodeError t)) :
    (Pass.assign options target r).run.run s = (some v, s) ↔
      (Pass.assign options target r).result = .ok v := by
  rw [(Pass.assign_yields target r).run_eq_iff, result_assign_eq_ok]

/-- Under either policy a tree decodes if it has no errors, and otherwise its errors come out,
up to the first one that ends a pass. -/
theorem decode_eq (options : Options) (t : Tree) (target : Target) :
    decode options t target =
      if (t.errors options.knownFields target).isEmpty then .ok (t.decoded target)
      else .error (upToFirst (Pass.stops options) (t.errors options.knownFields target)) := by
  rw [decode, Tree.errors, Tree.decoded]
  cases t.root? with
  | none => rfl
  | some root => exact Pass.result_eq (Pass.assign_yields target root.view)

/-- A value comes out if there are no errors. -/
theorem decode_eq_ok {options : Options} {target : Target} {v : Json} :
    decode options t target = .ok v ↔
      t.errors options.knownFields target = [] ∧ t.decoded target = v := by
  rw [decode_eq, ← List.isEmpty_iff]
  split
  · next hempty => simp [hempty]
  · next hempty => simp [hempty]

/--
**Collecting all errors loses none.**

The errors that come out are those of the recursion `errorsIn`, which hands nothing along,
up to the first defect of a target; and there is a value exactly if there are none.
-/
theorem decode_collectAll (strict : Bool) (t : Tree) (target : Target) :
    decode ⟨strict, .collectAll⟩ t target =
      if (t.errors strict target).isEmpty then .ok (t.decoded target)
      else .error (upToFirst DecodeError.isDefect (t.errors strict target)) := by
  rw [decode_eq, Pass.stops_collectAll]

end YamlDecode
