/-
Texts with no blanks around them.

A `Tight` text starts and ends with characters that are no blanks, so trimming takes
nothing off it, whatever stands on its other side.
-/
import Mathlib.Data.List.TakeWhile
import YamlDecode.Text.Blank

namespace YamlDecode.Text

/-- The text is not empty, and its first and its last character are no blanks. -/
structure Tight (cs : List Char) : Prop where
  first : ∃ c rest, cs = c :: rest ∧ isBlank c = false
  last : ∃ front c, cs = front ++ [c] ∧ isBlank c = false

theorem trimStart_eq_self {cs : List Char} :
    trimStart cs = cs ↔ cs.head?.any isBlank = false := by
  cases cs with
  | nil => simp [trimStart]
  | cons c cs => simp [trimStart, List.dropWhile_eq_self_iff]

theorem trimStart_spaces (n : Nat) (cs : List Char) :
    trimStart (List.replicate n ' ' ++ cs) = trimStart cs := by
  refine List.dropWhile_append_of_pos ?_
  intro c hc
  rw [List.eq_of_mem_replicate hc]
  rfl

theorem trim_spaces (n : Nat) (cs : List Char) :
    trim (List.replicate n ' ' ++ cs) = trim cs := by
  rw [trim, trim, trimStart_spaces]

theorem trim_of_allBlank {cs : List Char} (h : allBlank cs = true) : trim cs = [] := by
  induction cs with
  | nil => rfl
  | cons c cs ih =>
      rw [allBlank, List.all_cons, Bool.and_eq_true] at h
      rw [trim, trimStart, List.dropWhile_cons_of_pos h.1]
      exact ih h.2

namespace Tight

variable {cs : List Char}

theorem ne_nil (h : Tight cs) : cs ≠ [] := by
  obtain ⟨c, rest, rfl, -⟩ := h.first
  simp

/-- A text is more than blanks if there is something left of it when it is trimmed. -/
theorem allBlank_eq_false (h : Tight cs) {text : List Char} (htrim : trim text = cs) :
    allBlank text = false := by
  rw [← Bool.not_eq_true]
  intro hblank
  exact h.ne_nil (htrim.symm.trans (trim_of_allBlank hblank))

theorem trimStart_append (h : Tight cs) (rest : List Char) :
    trimStart (cs ++ rest) = cs ++ rest := by
  obtain ⟨c, tail, rfl, hc⟩ := h.first
  rw [List.cons_append, trimStart, List.dropWhile_cons_of_neg (by simp [hc])]

theorem trimStart_eq (h : Tight cs) : trimStart cs = cs := by
  have := h.trimStart_append []
  rwa [List.append_nil] at this

theorem trimEnd_append (h : Tight cs) (front : List Char) :
    trimEnd (front ++ cs) = front ++ cs := by
  obtain ⟨init, c, rfl, hc⟩ := h.last
  rw [trimEnd, ← List.append_assoc, List.reverse_concat, List.dropWhile_cons_of_neg (by simp [hc]),
    List.reverse_cons, List.reverse_reverse]

theorem trimEnd_eq (h : Tight cs) : trimEnd cs = cs := h.trimEnd_append []

theorem trim_eq (h : Tight cs) : trim cs = cs := by
  rw [trim, h.trimStart_eq, h.trimEnd_eq]

/-- Texts that start and end with tight ones are tight. -/
theorem append {mid last : List Char} (h : Tight cs) (hlast : Tight last) :
    Tight (cs ++ (mid ++ last)) := by
  obtain ⟨c, rest, rfl, hc⟩ := h.first
  obtain ⟨front, d, rfl, hd⟩ := hlast.last
  exact ⟨⟨c, rest ++ (mid ++ (front ++ [d])), by simp, hc⟩,
    ⟨c :: rest ++ (mid ++ front), d, by simp, hd⟩⟩

end Tight

/-- Behind a character that is no blank, only what follows it can lose blanks. -/
theorem trimEnd_append_of_last {c : Char} (hc : isBlank c = false) (front behind : List Char) :
    trimEnd (front ++ c :: behind) = front ++ c :: trimEnd behind := by
  have hkept : (c :: front.reverse).dropWhile isBlank = c :: front.reverse :=
    List.dropWhile_cons_of_neg (by simp [hc])
  rw [trimEnd, trimEnd, List.reverse_append, List.reverse_cons, List.append_assoc,
    List.singleton_append, List.dropWhile_append, hkept]
  split
  · next hempty =>
    rw [List.isEmpty_iff.1 hempty]
    simp
  · simp

/-- A text that starts with no blank is trimmed at its end only. -/
theorem trim_cons {c : Char} (hc : isBlank c = false) (cs : List Char) :
    trim (c :: cs) = trimEnd (c :: cs) := by
  rw [trim, trimStart, List.dropWhile_cons_of_neg (by simp [hc])]

theorem exists_trim_eq {c : Char} (hc : isBlank c = false) (cs : List Char) :
    ∃ more, trim (c :: cs) = c :: more := by
  rw [trim_cons hc]
  exact ⟨_, trimEnd_append_of_last hc [] cs⟩

theorem tight_singleton {c : Char} (h : isBlank c = false) : Tight [c] :=
  ⟨⟨c, [], rfl, h⟩, ⟨[], c, rfl, h⟩⟩

/-- A text of characters none of which is a blank is tight. -/
theorem tight_of_forall {cs : List Char} (hne : cs ≠ []) (h : ∀ c ∈ cs, isBlank c = false) :
    Tight cs := by
  obtain ⟨c, rest, rfl⟩ := List.exists_cons_of_ne_nil hne
  refine ⟨⟨c, rest, rfl, h c (by simp)⟩, ⟨(c :: rest).dropLast, (c :: rest).getLast hne, ?_, ?_⟩⟩
  · rw [List.dropLast_concat_getLast]
  · exact h _ (List.getLast_mem hne)

/-! ### Width -/

theorem width_reverse (cs : List Char) : width cs.reverse = width cs := by
  induction cs with
  | nil => rfl
  | cons c cs ih =>
      rw [List.reverse_cons, width_append, ih, width_cons, width_cons, width_nil]
      omega

theorem length_le_width (cs : List Char) : cs.length ≤ width cs := by
  induction cs with
  | nil => exact Nat.le_refl _
  | cons c cs ih =>
      have := c.utf8Size_pos
      rw [List.length_cons, width_cons]
      omega

theorem width_trim_le (cs : List Char) : width (trim cs) ≤ width cs := by
  obtain ⟨blanks, happend, -⟩ := trimEnd_append (trimStart cs)
  have hend : width (trimEnd (trimStart cs)) + width blanks = width (trimStart cs) := by
    rw [← width_append, happend]
  have hstart := blankWidth_add_width_trimStart cs
  unfold trim
  omega

/-- A text is no wider than one that is put together with it. -/
theorem width_le_intercalate {sep t : List Char} {ts : List (List Char)} (h : t ∈ ts) :
    width t ≤ width (sep.intercalate ts) := by
  induction ts with
  | nil => cases h
  | cons u ts ih =>
      rcases ts with - | ⟨w, ts⟩
      · have ht := List.mem_singleton.1 h
        exact Nat.le_of_eq (by rw [ht, List.intercalate_singleton])
      · rw [List.intercalate_cons_cons, width_append, width_append]
        rcases List.mem_cons.1 h with rfl | h
        · omega
        · have := ih h
          omega

/-- Texts that are not empty take up room, and so do the separators between them. -/
theorem length_le_width_intercalate {ts : List (List Char)} {n : Nat} (sep : List Char)
    (h : ∀ t ∈ ts, n ≤ t.length) :
    (n + sep.length) * ts.length ≤ width (sep.intercalate ts) + sep.length := by
  induction ts with
  | nil => simp
  | cons u ts ih =>
      have hu := h u (by simp)
      have hwidth := length_le_width u
      rcases ts with - | ⟨w, ts⟩
      · rw [List.intercalate_singleton, List.length_singleton]
        omega
      · have hrest := ih fun t ht => h t (by simp [ht])
        have hsep := length_le_width sep
        rw [List.intercalate_cons_cons, width_append, width_append, List.length_cons, Nat.mul_succ]
        omega

end YamlDecode.Text
