/-
What a step of a pass records, and what it gives.

A pass hands one list of errors from step to step and may stop at any of them, so what
one part of it does could depend on all that was recorded before.  It does not.  `Yields`
says so of a step: whatever was recorded before, it adds the same errors, cut behind the
first one that stops the pass, and a step that adds none gives the same value.

The value is left open where errors are added, since nobody sees it.  Two steps in a row
therefore compose as soon as the errors of the second one do not depend on the value of
the first, which is `Yields.bind`.  The one place where a pass looks at the list itself is
the guard on the key of an entry, and `yields_guarded` is that case.
-/
import YamlDecode.Decode.Pass

namespace YamlDecode

/-- The elements up to the first one with a property, and that one. -/
def upToFirst {α : Type} (stop : α → Bool) : List α → List α
  | [] => []
  | x :: xs => if stop x then [x] else x :: upToFirst stop xs

section UpToFirst

variable {α : Type} {stop : α → Bool}

theorem upToFirst_of_none {xs : List α} (h : xs.any stop = false) : upToFirst stop xs = xs := by
  induction xs with
  | nil => rfl
  | cons x xs ih =>
      rw [List.any_cons, Bool.or_eq_false_iff] at h
      rw [upToFirst, h.1, ih h.2]
      rfl

theorem upToFirst_append_of_any {xs : List α} (ys : List α) (h : xs.any stop = true) :
    upToFirst stop (xs ++ ys) = upToFirst stop xs := by
  induction xs with
  | nil => simp at h
  | cons x xs ih =>
      rw [List.cons_append, upToFirst, upToFirst]
      by_cases hx : stop x = true
      · rw [if_pos hx, if_pos hx]
      · rw [if_neg hx, if_neg hx, ih (by simpa [hx] using h)]

theorem upToFirst_append_of_none {xs : List α} (ys : List α) (h : xs.any stop = false) :
    upToFirst stop (xs ++ ys) = xs ++ upToFirst stop ys := by
  induction xs with
  | nil => rfl
  | cons x xs ih =>
      rw [List.any_cons, Bool.or_eq_false_iff] at h
      rw [List.cons_append, upToFirst, h.1, ih h.2]
      rfl

theorem upToFirst_eq_nil {xs : List α} : upToFirst stop xs = [] ↔ xs = [] := by
  cases xs with
  | nil => simp [upToFirst]
  | cons x xs =>
      unfold upToFirst
      split <;> simp

end UpToFirst

namespace Pass

variable {t : Tree} {α β : Type} (options : Options)

/-- Does an error end the pass? -/
def stops (e : DecodeError t) : Bool := e.isDefect || decide (options.policy = .firstError)

/-- If all errors are collected then only a defect of a target ends the pass. -/
theorem stops_collectAll (strict : Bool) :
    stops ⟨strict, .collectAll⟩ = DecodeError.isDefect (t := t) := by
  funext e
  simp [stops]

/-- The step adds the errors `es`, up to the first one that ends the pass, and then has no
value; it gives `a` if there are no errors to add. -/
def Yields (p : Pass t α) (es : List (DecodeError t)) (a : α) : Prop :=
  ∀ s : Array (DecodeError t), ∃ o : Option α,
    p.run.run s = (o, s ++ (upToFirst (stops options) es).toArray) ∧
    (o = none ↔ es.any (stops options) = true) ∧
    (es = [] → o = some a)

variable {options} {p : Pass t α} {es es' : List (DecodeError t)} {a : α}

theorem yields_pure (a : α) : Yields options (pure a : Pass t α) [] a := by
  intro s
  refine ⟨some a, ?_, by simp, fun _ => rfl⟩
  rw [upToFirst, List.append_toArray, List.append_nil]
  rfl

/-- One step behind another takes up its state, unless that one has no result. -/
theorem run_bind {σ : Type} (p : OptionT (StateM σ) α) (f : α → OptionT (StateM σ) β) (s : σ) :
    (p >>= f).run.run s =
      match p.run.run s with
      | (none, s) => (none, s)
      | (some a, s) => (f a).run.run s := by
  show StateT.run (p.run >>= fun o =>
    match o with
    | some a => (f a).run
    | none => pure none) s = _
  rw [StateT.run_bind]
  show (match (p.run.run s).1 with
    | some a => (f a).run
    | none => pure none).run (p.run.run s).2 = _
  obtain ⟨o, s'⟩ := p.run.run s
  cases o <;> rfl

theorem run_record (e : DecodeError t) (s : Array (DecodeError t)) :
    (record options e).run.run s = (if stops options e then none else some (), s.push e) := by
  rw [record, run_bind]
  show (OptionT.run (if stops options e then failure else pure () : Pass t Unit)).run (s.push e) = _
  split <;> rfl

theorem run_recorded (s : Array (DecodeError t)) :
    (recorded t).run.run s = (some s.size, s) := rfl

/-! ### The steps of which passes are made -/

theorem yields_record (e : DecodeError t) : Yields options (record options e) [e] () := by
  intro s
  refine ⟨if stops options e then none else some (), ?_, ?_, by simp⟩
  · rw [run_record, upToFirst]
    split <;> simp [upToFirst]
  · by_cases h : stops options e = true <;> simp [h]

theorem Yields.bind {f : α → Pass t β} {g : α → β} (hp : Yields options p es a)
    (hf : ∀ a, Yields options (f a) es' (g a)) :
    Yields options (p >>= f) (es ++ es') (g a) := by
  intro s
  obtain ⟨o, hrun, hnone, hval⟩ := hp s
  rw [run_bind, hrun]
  by_cases hstop : es.any (stops options) = true
  · obtain rfl := hnone.2 hstop
    refine ⟨none, ?_, by simp [hstop], ?_⟩
    · rw [upToFirst_append_of_any es' hstop]
    · intro h
      rw [(List.append_eq_nil_iff.1 h).1] at hstop
      simp at hstop
  · rw [Bool.not_eq_true] at hstop
    obtain ⟨b, rfl⟩ : ∃ b, o = some b := by
      cases o with
      | none => simp [hnone.1 rfl] at hstop
      | some b => exact ⟨b, rfl⟩
    obtain ⟨o', hrun', hnone', hval'⟩ := hf b (s ++ (upToFirst (stops options) es).toArray)
    refine ⟨o', ?_, by simpa [hstop] using hnone', ?_⟩
    · show (f b).run.run _ = _
      rw [hrun', upToFirst_of_none hstop, upToFirst_append_of_none es' hstop]
      simp
    · intro h
      obtain ⟨h, h'⟩ := List.append_eq_nil_iff.1 h
      obtain rfl : b = a := by simpa using hval h
      exact hval' h'

theorem Yields.map (f : α → β) (h : Yields options p es a) :
    Yields options (do let x ← p; return f x) es (f a) := by
  have := h.bind (g := f) fun x => yields_pure (f x)
  rwa [List.append_nil] at this

/-- Where there are errors the value is nobody's concern. -/
theorem Yields.of_ne_nil {a' : α} (h : Yields options p es a) (hne : es ≠ []) :
    Yields options p es a' := by
  intro s
  obtain ⟨o, hrun, hnone, -⟩ := h s
  exact ⟨o, hrun, hnone, fun hnil => absurd hnil hne⟩

/-- A step that comes to an end and leaves no error behind had none to add. -/
theorem Yields.run_eq_iff (h : Yields options p es a) {s : Array (DecodeError t)} {b : α} :
    p.run.run s = (some b, s) ↔ es = [] ∧ a = b := by
  obtain ⟨o, hrun, -, hval⟩ := h s
  rw [hrun]
  constructor
  · intro heq
    obtain ⟨ho, hs⟩ := Prod.mk.inj heq
    have hnil : es = [] := by simpa [upToFirst_eq_nil] using hs
    rw [hval hnil] at ho
    exact ⟨hnil, Option.some.inj ho⟩
  · rintro ⟨rfl, rfl⟩
    rw [hval rfl]
    simp [upToFirst]

theorem yields_record_then (e : DecodeError t) {q : Pass t β} {b b' : β}
    (hq : Yields options q es b) :
    Yields options (do record options e; q) (e :: es) b' :=
  ((yields_record e).bind (g := fun _ => b) fun _ => hq).of_ne_nil (List.cons_ne_nil e es)

/-- A continuation that is taken only if the step before it added no errors. -/
theorem yields_guarded {skip : Pass t β} {go : α → Pass t β} {skipped gone : List (DecodeError t)}
    {g : α → β} {b : β} (hp : Yields options p es a) (hskip : Yields options skip skipped b)
    (hgo : ∀ a, Yields options (go a) gone (g a)) :
    Yields options
      (do
        let before ← recorded t
        let a ← p
        if before < (← recorded t) then skip else go a)
      (es ++ if es.isEmpty then gone else skipped) (g a) := by
  intro s
  obtain ⟨o, hrun, hnone, hval⟩ := hp s
  rw [run_bind, run_recorded]
  show ∃ o', (p >>= fun a => recorded t >>= fun now =>
    if s.size < now then skip else go a).run.run s = _ ∧ _
  rw [run_bind, hrun]
  cases o with
  | none =>
      have hstop := hnone.1 rfl
      refine ⟨none, ?_, by simp [hstop], ?_⟩
      · rw [upToFirst_append_of_any _ hstop]
      · intro h
        rw [(List.append_eq_nil_iff.1 h).1] at hstop
        simp at hstop
  | some a' =>
      have hstop : es.any (stops options) = false := by simpa using hnone
      rw [upToFirst_append_of_none _ hstop, upToFirst_of_none hstop, ← List.append_toArray]
      show ∃ o', (recorded t >>= fun now => if s.size < now then skip else go a').run.run _ = _ ∧ _
      rw [run_bind, run_recorded]
      show ∃ o', (if s.size < (s ++ es.toArray).size then skip else go a').run.run _ = _ ∧ _
      cases es with
      | nil =>
          obtain rfl : a' = a := by simpa using hval rfl
          obtain ⟨o', hrun', hnone', hval'⟩ := hgo a' (s ++ [].toArray)
          refine ⟨o', ?_, by simpa using hnone', by simpa using hval'⟩
          rw [if_neg (by simp), hrun']
          simp
      | cons e es =>
          obtain ⟨o', hrun', hnone', -⟩ := hskip (s ++ (e :: es).toArray)
          refine ⟨o', ?_, by rw [List.any_append, hstop]; simpa using hnone', by simp⟩
          rw [if_pos (by simp), hrun']
          simp

end Pass

end YamlDecode
