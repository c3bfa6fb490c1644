/-
Folding of lines.

A fold looks at two neighbouring lines at a time and adds something for the second of them.  An
empty line adds its own break.  A line with content adds itself, and a space in front if the line
before it has content too.  So the breaks of empty lines come one by one, and `joints` follows them:
behind a line with content, `k` empty lines add `k` breaks, and if there are none the next line adds
a space (`joints_spread`).

The first line of a text is no second one of any two.  If it is empty it adds nothing, so `k` empty
lines at the start of a text make one break less than they make between lines.
-/
import YamlDecode.Document

namespace YamlDecode.Document

/-- What lines add to a folded text behind the line `before`. -/
def joints (before : List Char) (lines : List (List Char)) : List Char :=
  (List.zipWith foldJoint (before :: lines) lines).flatten

theorem foldLines_cons (first : List Char) (rest : List (List Char)) :
    foldLines (first :: rest) = first ++ joints first rest := rfl

theorem joints_cons (before line : List Char) (lines : List (List Char)) :
    joints before (line :: lines) = foldJoint before line ++ joints line lines := rfl

/-! ### Runs of empty lines -/

/-- Lines with content, each behind a number of empty ones. -/
def spread (gs : List (Nat × List Char)) : List (List Char) :=
  gs.flatMap fun g => List.replicate g.1 [] ++ [g.2]

/-- What stands between two lines with content that have `k` empty ones between them. -/
def foldGap (k : Nat) : List Char := if k = 0 then [' '] else List.replicate k '\n'

theorem spread_cons (k : Nat) (w : List Char) (gs : List (Nat × List Char)) :
    spread ((k, w) :: gs) = List.replicate k [] ++ w :: spread gs := by
  rw [spread, List.flatMap_cons, List.append_assoc]
  rfl

variable {w : List Char} (hw : w ≠ [])
include hw

/-- Behind an empty line, more of them add a break each, and the next line with content adds
nothing but itself. -/
theorem joints_empty (k : Nat) (lines : List (List Char)) :
    joints [] (List.replicate k [] ++ w :: lines) =
      List.replicate k '\n' ++ w ++ joints w lines := by
  induction k with
  | zero =>
      have hjoint : foldJoint [] w = w := by simp [foldJoint, hw]
      rw [List.replicate_zero, List.nil_append, joints_cons, hjoint]
      rfl
  | succ k ih =>
      rw [List.replicate_succ, List.cons_append, joints_cons, ih]
      rfl

theorem joints_content {v : List Char} (hv : v ≠ []) (k : Nat) (lines : List (List Char)) :
    joints v (List.replicate k [] ++ w :: lines) = foldGap k ++ w ++ joints w lines := by
  cases k with
  | zero =>
      have hjoint : foldJoint v w = ' ' :: w := by simp [foldJoint, hv, hw]
      rw [List.replicate_zero, List.nil_append, joints_cons, hjoint]
      rfl
  | succ k =>
      rw [List.replicate_succ, List.cons_append, joints_cons, joints_empty hw]
      rfl

theorem joints_spread {gs : List (Nat × List Char)} (hgs : ∀ g ∈ gs, g.2 ≠ []) :
    joints w (spread gs) = gs.flatMap fun g => foldGap g.1 ++ g.2 := by
  induction gs generalizing w with
  | nil => rfl
  | cons g gs ih =>
      obtain ⟨k, v⟩ := g
      have hv : v ≠ [] := hgs (k, v) List.mem_cons_self
      have hrest := ih hv fun g hg => hgs g (List.mem_cons_of_mem _ hg)
      rw [spread_cons, joints_content hv hw, hrest, List.flatMap_cons]

/-- At the start of a text the first of the empty lines adds nothing. -/
theorem foldLines_spread (k : Nat) {gs : List (Nat × List Char)} (hgs : ∀ g ∈ gs, g.2 ≠ []) :
    foldLines (spread ((k, w) :: gs)) =
      List.replicate (k - 1) '\n' ++ w ++ gs.flatMap fun g => foldGap g.1 ++ g.2 := by
  rw [spread_cons]
  cases k with
  | zero => rw [List.replicate_zero, List.nil_append, foldLines_cons, joints_spread hw hgs]; rfl
  | succ k =>
      rw [List.replicate_succ, List.cons_append, foldLines_cons, joints_empty hw,
        joints_spread hw hgs]
      rfl

omit hw

/-- Lines of which the last has content are lines with content behind empty ones. -/
theorem exists_spread {lines : List (List Char)} (hlast : ∃ last ∈ lines.getLast?, last ≠ []) :
    ∃ k w gs, (∀ g ∈ (k, w) :: gs, g.2 ≠ []) ∧ lines = spread ((k, w) :: gs) := by
  induction lines with
  | nil =>
      obtain ⟨last, hmem, -⟩ := hlast
      cases hmem
  | cons l lines ih =>
      cases lines with
      | nil =>
          obtain ⟨last, hmem, hne⟩ := hlast
          obtain rfl : l = last := Option.some.inj hmem
          exact ⟨0, l, [], by simpa using hne, rfl⟩
      | cons m lines =>
          rw [List.getLast?_cons_cons] at hlast
          obtain ⟨k, w, gs, hne, hlines⟩ := ih hlast
          rw [hlines]
          by_cases hl : l = []
          · subst hl
            refine ⟨k + 1, w, gs, List.forall_mem_cons.2 (List.forall_mem_cons.1 hne), ?_⟩
            rw [spread_cons, spread_cons, List.replicate_succ, List.cons_append]
          · refine ⟨0, l, (k, w) :: gs, List.forall_mem_cons.2 ⟨hl, hne⟩, ?_⟩
            rw [spread_cons 0]
            rfl

/--
**Folding keeps breaks between lines, and loses one at the start.**

If the last of some lines has content, those with content come one after the other, unchanged.  Two
neighbours are divided by a space, and two with `k` empty lines between them by `k` breaks.  In
front of the first there is one break less than there are empty lines.
-/
theorem foldLines_gaps {lines : List (List Char)} (hlast : ∃ last ∈ lines.getLast?, last ≠ []) :
    ∃ k w gs, (∀ g ∈ (k, w) :: gs, g.2 ≠ []) ∧ lines = spread ((k, w) :: gs) ∧
      foldLines lines =
        List.replicate (k - 1) '\n' ++ w ++ gs.flatMap fun g => foldGap g.1 ++ g.2 := by
  obtain ⟨k, w, gs, hne, rfl⟩ := exists_spread hlast
  obtain ⟨hw, hgs⟩ := List.forall_mem_cons.1 hne
  exact ⟨k, w, gs, hne, rfl, foldLines_spread hw k hgs⟩

/-- Empty lines in front of the first line with content and between the last two. -/
theorem foldLines_gaps_runs :
    foldLines [[], [], ['a'], ['b'], [], ['c']] = "\na b\nc".toList ∧
      ∃ k w gs, (∀ g ∈ (k, w) :: gs, g.2 ≠ []) ∧
        [[], [], ['a'], ['b'], [], ['c']] = spread ((k, w) :: gs) ∧
        foldLines [[], [], ['a'], ['b'], [], ['c']] =
          List.replicate (k - 1) '\n' ++ w ++ gs.flatMap fun g => foldGap g.1 ++ g.2 :=
  ⟨by decide, foldLines_gaps ⟨['c'], rfl, by decide⟩⟩

/-- One empty line in front of a text, whose break is lost. -/
theorem fold_leadingBreak :
    spread [(1, ['b'])] = [[], ['b']] ∧ foldLines [[], ['b']] = ['b'] ∧
      foldLines [[], ['b']] ≠ List.replicate 1 '\n' ++ ['b'] ∧
      parse "a: >\n\n  b\n" = .ok (.ofRose (.node ⟨.map, "", 1, 1⟩
        [.leaf ⟨.str, "a", 1, 1⟩, .leaf ⟨.str, "b\n", 1, 4⟩])) := by
  have hread : Document.read "a: >\n\n  b\n".toList = .ok (.node ⟨.map, "", 1, 1⟩
      [.leaf ⟨.str, "a", 1, 1⟩, .leaf ⟨.str, "b\n", 1, 4⟩]) := rfl
  exact ⟨by decide, by decide, by decide, congrArg (Except.map Tree.ofRose) hread⟩

end YamlDecode.Document
