/-
Quotes inside plain texts.

The scanners of comments and of commas watch for quotes at every place of a text, while a plain
text may hold quotes as it holds any other character.  So an apostrophe inside a word opens quotes
for them, and what follows counts as quoted, up to the next one.

All that a plain text does to what stands behind it is therefore told by the state in which these
scanners leave it, and that state does not depend on which of them it was: `QuotesClosed` says that
it is the state they came with.  A comment is taken off behind a text with closed quotes and behind
no other.
-/
import YamlDecode.Proofs.Text.Plain

namespace YamlDecode.Text

/-- Who reads the text from outside of quotes is outside of quotes behind it. -/
def QuotesClosed (cs : List Char) : Prop := cs.foldl Quoting.step .plain = .plain

instance : DecidablePred QuotesClosed := fun cs =>
  inferInstanceAs (Decidable (cs.foldl Quoting.step .plain = .plain))

/-! ### Comments -/

theorem foldl_commentScanner (cs : List Char) :
    ∀ st, (cs.foldl commentScanner.step st).1 = cs.foldl Quoting.step st.1 := by
  induction cs with
  | nil => intro st; rfl
  | cons c cs ih =>
      intro st
      exact ih (commentScanner.step st c)

/-- A text without a comment is run through, to the state that its quotes lead to. -/
theorem NoComment.run_quotes {cs : List Char} (h : NoComment cs) (hfirst : cs.head? ≠ some '#') :
    ∃ afterBlank, commentScanner.run commentScanner.start cs =
      some (cs.foldl Quoting.step .plain, afterBlank) := by
  obtain ⟨⟨q, afterBlank⟩, hrun⟩ := h.run .plain true fun _ => hfirst
  have hq : q = cs.foldl Quoting.step .plain := by
    have hstate := foldl_commentScanner cs (.plain, true)
    rw [← Scanner.eq_of_run hrun] at hstate
    exact hstate
  exact ⟨afterBlank, hq ▸ hrun⟩

/-- Inside quotes a space and a comment sign are passed over. -/
theorem run_comment_quoted {q : Quoting} (hq : q ≠ .plain) (afterBlank : Bool) :
    ∃ st, commentScanner.run (q, afterBlank) [' ', '#'] = some st := by
  cases q with
  | plain => exact absurd rfl hq
  | single => exact ⟨_, rfl⟩
  | double => exact ⟨_, rfl⟩
  | escaped => exact ⟨_, rfl⟩

section Comment

variable {cs : List Char} (h : NoComment cs) (htight : Tight cs) (hfirst : cs.head? ≠ some '#')
include h hfirst

include htight in
/-- Behind closed quotes a comment is taken off, and nothing else. -/
theorem NoComment.stripComment_closed (hclosed : QuotesClosed cs) (comment : List Char) :
    stripComment (cs ++ ' ' :: '#' :: comment) = cs := by
  obtain ⟨afterBlank, hrun⟩ := h.run_quotes hfirst
  rw [hclosed] at hrun
  have hspace : commentScanner.run commentScanner.start (cs ++ [' ']) = some (.plain, true) := by
    rw [Scanner.run_append hrun]
    cases afterBlank <;> rfl
  have hcut := Scanner.cut_of_stop hspace (c := '#') rfl comment
  rw [List.append_assoc, List.singleton_append] at hcut
  obtain ⟨front, c, rfl, hc⟩ := htight.last
  rw [stripComment, hcut, List.append_assoc, List.singleton_append, trimEnd_append_of_last hc]
  rfl

/-- Behind open quotes the comment sign is one more character of the text. -/
theorem NoComment.stripComment_open (hopen : ¬QuotesClosed cs) (comment : List Char) :
    ∃ more, stripComment (cs ++ ' ' :: '#' :: comment) = cs ++ ' ' :: '#' :: more := by
  obtain ⟨afterBlank, hrun⟩ := h.run_quotes hfirst
  obtain ⟨st, hsign⟩ := run_comment_quoted hopen afterBlank
  rw [← Scanner.run_append hrun] at hsign
  obtain ⟨more, hcut⟩ := Scanner.cut_append_of_run hsign comment
  have hblank : isBlank '#' = false := rfl
  rw [List.append_assoc, List.cons_append, List.singleton_append] at hcut
  have htrim := trimEnd_append_of_last hblank (cs ++ [' ']) more
  rw [stripComment, hcut]
  simp only [List.append_assoc, List.cons_append, List.nil_append] at htrim ⊢
  exact ⟨_, htrim⟩

end Comment

/-! ### Commas -/

/-- The characters that mean something to the scanner of commas, quotes apart. -/
def flowMarks : List Char := [',', '{', '[', '}', ']']

/-- A text without these is run through as well, to the same state. -/
theorem run_comma_quotes {cs : List Char} (h : ∀ c ∈ flowMarks, c ∉ cs) (depth : Int) :
    ∀ q, commaScanner.run (q, depth) cs = some (cs.foldl Quoting.step q, depth) := by
  induction cs with
  | nil => intro q; rfl
  | cons c cs ih =>
      intro q
      have hc : ∀ d ∈ flowMarks, c ≠ d := by
        rintro d hd rfl
        exact h c hd (by simp)
      have hrest : ∀ d ∈ flowMarks, d ∉ cs := fun d hd hmem => h d hd (by simp [hmem])
      have hstep : commaScanner.step (q, depth) c = (q.step c, depth) := by
        simp [commaScanner, hc '{' (by decide), hc '[' (by decide), hc '}' (by decide),
          hc ']' (by decide)]
      rw [Scanner.run_cons (by simp [commaScanner, hc ',' (by decide)]), hstep]
      exact ih hrest (q.step c)

/-- Inside quotes a comma and a space are passed over. -/
theorem run_comma_quoted {q : Quoting} (hq : q ≠ .plain) (depth : Int) :
    commaScanner.run (q, depth) [',', ' '] = some ([',', ' '].foldl Quoting.step q, depth) := by
  cases q with
  | plain => exact absurd rfl hq
  | single => rfl
  | double => rfl
  | escaped => rfl

end YamlDecode.Text
