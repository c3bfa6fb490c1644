/-
Lines that are left to read.

A reader looks at the next line with content and at nothing behind it, so what matters of
the lines left is that line: `Next` says something of it, if there is one.  Where a block
ends is said in these terms.
-/
import YamlDecode.Document.Line
import YamlDecode.Proofs.Text.Blank

namespace YamlDecode.Document

open YamlDecode.Text

theorem skipIgnorable_cons {l : Line} (h : l.ignorable = false) (ls : List Line) :
    skipIgnorable (l :: ls) = l :: ls :=
  List.dropWhile_cons_of_neg (by simp [h])

/-! ### Lines behind a block -/

/-- The first line with content, if there is one, is such a line. -/
def Next (p : Line → Prop) (ls : List Line) : Prop :=
  ∀ l rest, skipIgnorable ls = l :: rest → p l

/-- The line belongs to no sequence of that indentation, and to nothing inside of it. -/
def Line.EndsSequence (indent : Nat) (l : Line) : Prop :=
  l.indent < indent ∨ l.indent = indent ∧ isItem l.text = false

theorem Next.mono {p q : Line → Prop} {ls : List Line} (h : Next p ls) (hpq : ∀ l, p l → q l) :
    Next q ls :=
  fun l rest hskip => hpq l (h l rest hskip)

theorem next_nil (p : Line → Prop) : Next p [] := nofun

theorem next_cons {p : Line → Prop} {l : Line} (hcontent : l.ignorable = false) (h : p l)
    (ls : List Line) : Next p (l :: ls) := by
  intro l' rest hskip
  rw [skipIgnorable_cons hcontent] at hskip
  obtain ⟨rfl, -⟩ := List.cons.inj hskip
  exact h

theorem head_of_isItem {text : List Char} (h : isItem text = true) : text.head? = some '-' := by
  unfold isItem at h
  split at h
  · rfl
  · rfl
  · cases h

/-! ### Spaces and the text behind them -/

section Spaces

variable (n number : Nat) (cs : List Char)

private theorem eq_space {n : Nat} {c : Char} (hc : c ∈ List.replicate n ' ') :
    (c == ' ') = true := by
  rw [List.eq_of_mem_replicate hc]
  rfl

theorem dropWhile_spaces :
    (List.replicate n ' ' ++ cs).dropWhile (· == ' ') = cs.dropWhile (· == ' ') :=
  List.dropWhile_append_of_pos fun _ => eq_space

theorem Line.indent_spaces :
    (⟨number, 0, List.replicate n ' ' ++ cs⟩ : Line).indent =
      n + (cs.takeWhile (· == ' ')).length := by
  rw [indent, List.takeWhile_append_of_pos fun _ => eq_space, List.length_append,
    List.length_replicate, Nat.zero_add]

end Spaces

section NoSpace

variable {cs : List Char}

/-- A text that starts with no blank starts with no space. -/
theorem head?_ne_space (h : trimStart cs = cs) : cs.head? ≠ some ' ' := by
  intro hspace
  rw [trimStart_eq_self, hspace] at h
  cases h

theorem takeWhile_space_eq_nil (h : cs.head? ≠ some ' ') : cs.takeWhile (· == ' ') = [] := by
  cases cs with
  | nil => rfl
  | cons c cs =>
      refine List.takeWhile_cons_of_neg fun hspace => h ?_
      rw [List.head?_cons, eq_of_beq hspace]

theorem dropWhile_space_eq_self (h : cs.head? ≠ some ' ') : cs.dropWhile (· == ' ') = cs := by
  have hsplit := List.takeWhile_append_dropWhile (p := (· == ' ')) (l := cs)
  rwa [takeWhile_space_eq_nil h, List.nil_append] at hsplit

end NoSpace

theorem width_spaces (cs : List Char) :
    (cs.takeWhile (· == ' ')).length + width (cs.dropWhile (· == ' ')) = width cs := by
  induction cs with
  | nil => rfl
  | cons c cs ih =>
      by_cases hc : c = ' '
      · subst hc
        have hsize : ' '.utf8Size = 1 := rfl
        rw [List.takeWhile_cons_of_pos rfl, List.dropWhile_cons_of_pos rfl, List.length_cons,
          width_cons]
        omega
      · have hspace : ¬(c == ' ') = true := by simpa using hc
        rw [List.takeWhile_cons_of_neg (p := (· == ' ')) hspace,
          List.dropWhile_cons_of_neg (p := (· == ' ')) hspace, List.length_nil, Nat.zero_add]

theorem trim_rest (l : Line) : trim l.rest = trim l.text := by
  have hstart : ∀ cs : List Char, trimStart (cs.dropWhile (· == ' ')) = trimStart cs := by
    intro cs
    induction cs with
    | nil => rfl
    | cons c cs ih =>
        by_cases hc : c = ' '
        · subst hc
          exact ih
        · rw [List.dropWhile_cons_of_neg (by simpa using hc)]
  rw [trim, trim, Line.text, hstart]

end YamlDecode.Document
