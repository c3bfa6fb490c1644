/-
The first error alone.

Under either policy a pass goes the same way up to its first error.  `decode_eq` has both
passes record the errors of one recursion, up to the first one that ends the pass; where
the first error is enough every error does, and so what comes out is the head of what
comes out otherwise.
-/
import YamlDecode.Proofs.Decode.Errors

namespace YamlDecode

section UpToFirst

variable {α : Type} {stop : α → Bool}

/-- Nothing is cut off in front of the first element with the property. -/
theorem head?_upToFirst (xs : List α) : (upToFirst stop xs).head? = xs.head? := by
  cases xs with
  | nil => rfl
  | cons x xs =>
      rw [upToFirst]
      split <;> rfl

/-- If all elements have the property, the first of them is all that is left. -/
theorem upToFirst_of_all (h : ∀ x, stop x = true) (xs : List α) :
    upToFirst stop xs = xs.head?.toList := by
  cases xs with
  | nil => rfl
  | cons x xs =>
      rw [upToFirst, if_pos (h x)]
      rfl

end UpToFirst

variable {t : Tree}

theorem Pass.stops_firstError (strict : Bool) (e : DecodeError t) :
    Pass.stops ⟨strict, .firstError⟩ e = true := by
  simp [Pass.stops]

/--
**The first error is the head of all errors.**

A pass that stops at its first error has a value exactly if one that goes on has it, and
otherwise it reports that one's first error: the same node, name, cause, target and details,
and the same remark.
-/
theorem decode_firstError (strict : Bool) (t : Tree) (target : Target) :
    (∀ v, decode ⟨strict, .firstError⟩ t target = .ok v ↔
        decode ⟨strict, .collectAll⟩ t target = .ok v) ∧
      ∀ es, decode ⟨strict, .collectAll⟩ t target = .error es →
        ∃ e, es.head? = some e ∧ decode ⟨strict, .firstError⟩ t target = .error [e] := by
  rw [decode_eq, decode_eq, upToFirst_of_all (Pass.stops_firstError strict)]
  cases herrors : t.errors strict target with
  | nil => exact ⟨fun v => Iff.rfl, nofun⟩
  | cons e rest =>
      refine ⟨fun v => ⟨nofun, nofun⟩, ?_⟩
      intro es hes
      obtain rfl := Except.error.inj hes
      exact ⟨e, head?_upToFirst (e :: rest), rfl⟩

end YamlDecode
