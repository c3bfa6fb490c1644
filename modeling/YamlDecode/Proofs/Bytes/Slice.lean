/-
Texts by byte positions.

A reader that keeps a text as it is and goes by positions in it has to slice it.  A slice is
defined where a character starts and nowhere else, and an index or a difference of lengths is
defined only in bounds.  `Checked` is the outcome of a run that breaks off where one of them is
not, so what such a run is shown to give also says that it never breaks off.

Positions are only ever those of the parts that a text has been cut into, and at the width of a
front part a slice is defined: these are the lemmas that everything else rests on.
-/
import YamlDecode.Document.Error
import YamlDecode.Proofs.Text.Blank

namespace YamlDecode.Bytes

open YamlDecode.Text

/-- Why a run has no result. -/
inductive Stop where
  /-- A slice, an index or a difference is not defined. -/
  | broken
  | refused (e : ParseError)
  deriving DecidableEq

/-- What a run comes to that may break off. -/
abbrev Checked (α : Type) := Except Stop α

section Outcome

variable {α β : Type}

/-- An outcome of a run that does not break off. -/
def safe : Except ParseError α → Checked α
  | .error e => .error (.refused e)
  | .ok a => .ok a

def refuse (line : Nat) (fault : Document.Fault) : Checked α := .error (.refused ⟨line, fault⟩)

/-- An outcome of `safe` is that of a run to its end. -/
theorem safe_ne_broken (x : Except ParseError α) : safe x ≠ .error .broken := by
  cases x with
  | error e =>
      intro h
      cases h
  | ok a =>
      intro h
      cases h

@[simp] theorem ok_bind (a : α) (f : α → Checked β) : (Except.ok a >>= f) = f a := rfl

theorem safe_bind {x : Except ParseError α} {f : α → Except ParseError β} {f' : α → Checked β}
    (h : ∀ a, f' a = safe (f a)) : (safe x >>= f') = safe (x >>= f) := by
  cases x with
  | error e => rfl
  | ok a => exact h a

end Outcome

/-! ### Slices -/

/-- The text from a byte on. -/
def sliceFrom : List Char → Nat → Checked (List Char)
  | cs, 0 => .ok cs
  | [], _ + 1 => .error .broken
  | c :: cs, n + 1 =>
    if c.utf8Size ≤ n + 1 then sliceFrom cs (n + 1 - c.utf8Size) else .error .broken

/-- The text up to a byte. -/
def sliceTo : List Char → Nat → Checked (List Char)
  | _, 0 => .ok []
  | [], _ + 1 => .error .broken
  | c :: cs, n + 1 =>
    if c.utf8Size ≤ n + 1 then (sliceTo cs (n + 1 - c.utf8Size)).map (c :: ·)
    else .error .broken

/-- The difference of two lengths. -/
def difference (a b : Nat) : Checked Nat := if b ≤ a then .ok (a - b) else .error .broken

/-- The text from one byte up to another. -/
def slice (cs : List Char) (start stop : Nat) : Checked (List Char) := do
  let length ← difference stop start
  sliceTo (← sliceFrom cs start) length

/-- The element at an index. -/
def item {α : Type} (xs : List α) (i : Nat) : Checked α :=
  match xs[i]? with
  | none => .error .broken
  | some x => .ok x

/-- The first elements. -/
def itemsTo {α : Type} (xs : List α) (n : Nat) : Checked (List α) :=
  if n ≤ xs.length then .ok (xs.take n) else .error .broken

theorem sliceFrom_cons (c : Char) (cs : List Char) (n : Nat) :
    sliceFrom (c :: cs) (c.utf8Size + n) = sliceFrom cs n := by
  obtain ⟨k, hk⟩ : ∃ k, c.utf8Size = k + 1 := ⟨c.utf8Size - 1, by have := c.utf8Size_pos; omega⟩
  have hsum : c.utf8Size + n = k + n + 1 := by omega
  rw [hsum, sliceFrom, if_pos (by omega), hk]
  congr 1
  omega

theorem sliceTo_cons (c : Char) (cs : List Char) (n : Nat) :
    sliceTo (c :: cs) (c.utf8Size + n) = (sliceTo cs n).map (c :: ·) := by
  obtain ⟨k, hk⟩ : ∃ k, c.utf8Size = k + 1 := ⟨c.utf8Size - 1, by have := c.utf8Size_pos; omega⟩
  have hsum : c.utf8Size + n = k + n + 1 := by omega
  have hrest : k + n + 1 - (k + 1) = n := by omega
  rw [hsum, sliceTo, if_pos (by omega), hk, hrest]

/-- A slice is defined behind a front part of the text. -/
theorem sliceFrom_width (front behind : List Char) :
    sliceFrom (front ++ behind) (width front) = .ok behind := by
  induction front with
  | nil => exact sliceFrom.eq_1 behind
  | cons c front ih => rw [List.cons_append, width_cons, sliceFrom_cons, ih]

theorem sliceTo_width (front behind : List Char) :
    sliceTo (front ++ behind) (width front) = .ok front := by
  induction front with
  | nil => exact sliceTo.eq_1 behind
  | cons c front ih =>
      rw [List.cons_append, width_cons, sliceTo_cons, ih]
      rfl

/-- Nowhere else is a slice defined. -/
theorem sliceFrom_eq_ok {cs behind : List Char} {n : Nat} :
    sliceFrom cs n = .ok behind ↔ ∃ front, cs = front ++ behind ∧ width front = n := by
  constructor
  · intro h
    induction cs generalizing n with
    | nil =>
        cases n with
        | zero =>
            cases h
            exact ⟨[], rfl, rfl⟩
        | succ n => cases h
    | cons c cs ih =>
        cases n with
        | zero =>
            cases h
            exact ⟨[], rfl, rfl⟩
        | succ n =>
            rw [sliceFrom] at h
            split at h
            · obtain ⟨front, rfl, hwidth⟩ := ih h
              refine ⟨c :: front, rfl, ?_⟩
              rw [width_cons, hwidth]
              omega
            · cases h
  · rintro ⟨front, rfl, rfl⟩
    exact sliceFrom_width front behind

/-- It is not defined inside of a character. -/
example : sliceFrom ['é', 'a'] 1 = .error .broken := rfl

theorem difference_eq {a b : Nat} (h : b ≤ a) : difference a b = .ok (a - b) := if_pos h

theorem item_eq {α : Type} {xs : List α} {i : Nat} {x : α} (h : xs[i]? = some x) :
    item xs i = .ok x := by
  rw [item, h]

theorem slice_width (before middle behind : List Char) :
    slice (before ++ (middle ++ behind)) (width before) (width before + width middle) =
      .ok middle := by
  rw [slice, difference_eq (Nat.le_add_right _ _), Nat.add_sub_cancel_left]
  simp only [ok_bind, sliceFrom_width, sliceTo_width]

/-! ### Positions -/

/-- At a byte a text is cut into what has been passed, backwards, and what is left. -/
structure Cut (text : List Char) (i : Nat) (seen left : List Char) : Prop where
  text_eq : text = seen.reverse ++ left
  byte_eq : i = width seen.reverse

namespace Cut

variable {text seen left : List Char} {i : Nat}

theorem start (text : List Char) : Cut text 0 [] text := ⟨rfl, rfl⟩

theorem of_append {front : List Char} (h : text = front ++ left) :
    Cut text (width front) front.reverse left := by
  refine ⟨?_, ?_⟩
  all_goals rw [List.reverse_reverse]
  exact h

theorem next {c : Char} (h : Cut text i seen (c :: left)) :
    Cut text (i + c.utf8Size) (c :: seen) left := by
  refine ⟨by simp [h.text_eq], ?_⟩
  rw [h.byte_eq, List.reverse_cons, width_append, width_cons, width_nil, Nat.add_zero]

theorem sliceFrom (h : Cut text i seen left) : sliceFrom text i = .ok left := by
  rw [h.text_eq, h.byte_eq, sliceFrom_width]

theorem sliceTo (h : Cut text i seen left) : sliceTo text i = .ok seen.reverse := by
  rw [h.text_eq, h.byte_eq, sliceTo_width]

/-- Behind a character of one byte. -/
theorem sliceBehind {c : Char} (h : Cut text i seen (c :: left)) (hc : c.utf8Size = 1) :
    Bytes.sliceFrom text (i + 1) = .ok left := by
  have hnext := h.next.sliceFrom
  rwa [hc] at hnext

theorem eq_nil (h : Cut text 0 seen left) : seen = [] := by
  have hlength := length_le_width seen.reverse
  rw [← h.byte_eq, List.length_reverse] at hlength
  exact List.eq_nil_of_length_eq_zero (Nat.le_zero.1 hlength)

end Cut

end YamlDecode.Bytes
