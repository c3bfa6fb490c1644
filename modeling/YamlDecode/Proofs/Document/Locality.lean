/-
An error is decided by the lines up to its own.

Two documents that begin with the same lines are read in step until nothing is left of those.
From then on no line with content stands where both documents are the same, so whatever the
first run still finds, and whatever it stops at, stands behind them.

The exception is a collection of too many items: by the time it is refused the reader has gone
past the line of the error.  That takes more lines than a collection may have items.
-/
import Mathlib
import YamlDecode.Proofs.Document.Parallel

namespace YamlDecode

namespace Document

open YamlDecode.Text

/-- Places stay what they are. -/
def Shift.still : Shift := ⟨id, 0⟩

/-- Two runs on documents that have the first `n` lines in common. -/
def sharing (n : Nat) : Tandem (List Line) where
  shift := .still
  late e := n < e.line ∨ e.fault.CountsLines
  gone ls := ∀ l ∈ ls, l.ignorable = false → n < l.number
  left ls ls' := ∃ front below below', ls = front ++ below ∧ ls' = front ++ below' ∧
    ∀ l ∈ below, n < l.number

theorem skipIgnorable_append {ls rest : List Line} {l : Line} (h : skipIgnorable ls = l :: rest)
    (below : List Line) : skipIgnorable (ls ++ below) = l :: (rest ++ below) := by
  rw [skipIgnorable] at h ⊢
  rw [List.dropWhile_append, h]
  rfl

/-- A block scalar ends among the first lines, or takes up all of them. -/
theorem takeBlock_append (parent : Nat) (front : List Line) :
    ∀ (indent : Option Nat) (done : List (List Char)),
      (∃ taken rest, ∀ below,
          takeBlock parent indent done (front ++ below) = (taken, rest ++ below)) ∨
        ∀ below, (takeBlock parent indent done (front ++ below)).2 <:+ below := by
  induction front with
  | nil => exact fun indent done => .inr fun below => takeBlock_suffix parent below indent done
  | cons l front ih =>
      intro indent done
      simp only [List.cons_append]
      unfold takeBlock
      by_cases hblank : allBlank l.text = true
      · simp only [if_pos hblank]
        exact ih indent ([] :: done)
      simp only [if_neg hblank]
      cases indent with
      | none =>
          by_cases hless : l.indent ≤ parent
          · simp only [if_pos hless]
            exact .inl ⟨done, l :: front, fun below => rfl⟩
          · simp only [if_neg hless]
            exact ih _ _
      | some n =>
          by_cases hless : l.indent < n
          · simp only [if_pos hless]
            exact .inl ⟨done, l :: front, fun below => rfl⟩
          · simp only [if_neg hless]
            exact ih _ _

theorem parallel_sharing (n : Nat) : Parallel (sharing n) where
  suffix hgone hafter l hl := hgone l (hafter.subset hl)
  late := by
    intro ls e hgone hblames
    obtain ⟨l, hl, hcontent, hline⟩ := hblames.content
    exact .inl (hline ▸ hgone l hl hcontent)
  count _ hcounts := .inr hcounts
  next := by
    rintro - - ⟨front, below, below', rfl, rfl, hbelow⟩
    cases hskip : skipIgnorable front with
    | nil =>
        -- What the documents share holds no content any more.
        refine .inl fun l hl hcontent => ?_
        rcases List.mem_append.1 hl with hl | hl
        · rw [skipIgnorable, List.dropWhile_eq_nil_iff] at hskip
          rw [hskip l hl] at hcontent
          cases hcontent
        · exact hbelow l hl
    | cons l rest =>
        refine .inr (.inr ⟨l, l, rest ++ below, rest ++ below', skipIgnorable_append hskip below,
          skipIgnorable_append hskip below', ⟨rfl, rfl, rfl⟩, ⟨l :: rest, below, below', rfl, rfl,
          hbelow⟩, ⟨rest, below, below', rfl, rfl, hbelow⟩, fun _ => ⟨_ :: rest, below, below', rfl,
          rfl, hbelow⟩, ?_⟩)
        intro tail header _ _
        unfold Header.readBlock
        rcases takeBlock_append l.indent rest (header.indent.map (l.indent + ·)) [] with
          ⟨taken, left, htake⟩ | htake
        · simp only [htake]
          exact .inr ⟨left ++ below', rfl, left, below, below', rfl, rfl, hbelow⟩
        · exact .inl fun l hl _ => hbelow l ((htake below).subset hl)

/-! ### Documents -/

theorem take_linesOf {text text' : List Char} {n : Nat}
    (h : (lines text).take n = (lines text').take n) :
    (linesOf text).take n = (linesOf text').take n := by
  have hline : ∀ (text : List Char) (i : Nat),
      (linesOf text)[i]? = ((lines text)[i]?).map fun rest => ⟨i + 1, 0, rest⟩ := by
    intro text i
    rw [linesOf, List.getElem?_map, List.getElem?_zipIdx]
    cases (lines text)[i]? with
    | none => rfl
    | some rest => simp
  refine List.ext_getElem? fun i => ?_
  have hi := congrArg (·[i]?) h
  simp only [List.getElem?_take] at hi ⊢
  split
  · next hlt =>
    rw [if_pos hlt, if_pos hlt] at hi
    rw [hline, hline, hi]
  · rfl

theorem lt_number_of_mem_drop {text : List Char} {n : Nat} {l : Line}
    (h : l ∈ (linesOf text).drop n) : n < l.number := by
  obtain ⟨i, hi⟩ := List.mem_iff_getElem?.1 h
  rw [List.getElem?_drop] at hi
  rw [(getElem?_linesOf hi).1]
  omega

theorem sharing_left {text text' : List Char} {n : Nat}
    (h : (lines text).take n = (lines text').take n) :
    (sharing n).left (linesOf text) (linesOf text') := by
  refine ⟨(linesOf text).take n, (linesOf text).drop n, (linesOf text').drop n, ?_, ?_,
    fun l => lt_number_of_mem_drop⟩
  · rw [List.take_append_drop]
  · rw [take_linesOf h, List.take_append_drop]

theorem read_error_local {text text' : List Char} {e : ParseError}
    (hlength : (lines text).length ≤ maxItems) (hlength' : (lines text').length ≤ maxItems)
    (herror : Document.read text = .error e)
    (hsame : (lines text).take e.line = (lines text').take e.line) :
    Document.read text' = .error e := by
  have hmax : maxItems ≤ maxLines := by decide
  rw [read_of_length_le (hlength.trans hmax)] at herror
  rw [read_of_length_le (hlength'.trans hmax)]
  have hroot := map_eq_error herror
  have hfollows := readRoot_follows (parallel_sharing e.line) (sharing_left hsame)
  rw [hroot] at hfollows
  rcases hfollows with hlate | hroot'
  · rcases hlate with hless | hcounts
    · exact absurd hless (Nat.lt_irrefl _)
    · -- Items that are counted stand on lines of their own, and there are not as many.
      have hmany := ((readRoot_eq_error hroot).mono (rootLines_suffix _)).count hcounts
      rw [length_linesOf] at hmany
      omega
  · rw [hroot']
    exact congrArg Except.error (Shift.error_eq (m := .still) rfl e)

end Document

/-- **What stands behind the line of an error does not matter for it**, in documents of no more
lines than a collection may have items. -/
theorem parse_error_local {text text' : String} {e : ParseError}
    (hlength : (Text.lines text.toList).length ≤ Document.maxItems)
    (hlength' : (Text.lines text'.toList).length ≤ Document.maxItems)
    (herror : parse text = .error e)
    (hsame : (Text.lines text.toList).take e.line = (Text.lines text'.toList).take e.line) :
    parse text' = .error e := by
  have hread := Document.read_error_local hlength hlength' (map_eq_error herror) hsame
  rw [parse, hread]
  rfl

/-- A dash among the entries of a mapping, with other lines behind it. -/
theorem parse_error_local_mixed :
    parse "a:\n  b: |\n   x\n  - c\n\"" = .error ⟨4, .mixed⟩ ∧
      parse "a:\n  b: |\n   x\n  - c\n d: [\n" = .error ⟨4, .mixed⟩ := by
  have herror : parse "a:\n  b: |\n   x\n  - c\n\"" = .error ⟨4, .mixed⟩ := by cbv
  exact ⟨herror, parse_error_local (by decide) (by decide) herror (by decide)⟩

end YamlDecode
