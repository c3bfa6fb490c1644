/-
Texts that stand for themselves.

Quotes, brackets, colons and comment signs may stand inside a plain text, and each reader that scans
it has its own rule for which of them mean something.  The scanner of comments even takes a quote
inside the text for an opening one, and is then in a state of which nothing can be said.  But no rule
asks for more than a character and its neighbour, and so texts that stay in one piece are told by
their neighbours: such a text is left alone in whichever state it is entered.
-/
import Mathlib.Data.List.Chain
import YamlDecode.Proofs.Text.Blank
import YamlDecode.Proofs.Text.Scan
import YamlDecode.Text.Quoted

namespace YamlDecode.Text

/-- No comment starts inside the text: behind a blank there is no comment sign. -/
def NoComment (cs : List Char) : Prop := cs.IsChain fun c d => isBlank c = true → d ≠ '#'

/-- No key ends inside the text: behind a colon there is no blank. -/
def NoKeyEnd (cs : List Char) : Prop := cs.IsChain fun c d => c = ':' → isBlank d = false

instance : DecidablePred NoComment := fun cs => inferInstanceAs (Decidable (cs.IsChain _))

instance : DecidablePred NoKeyEnd := fun cs => inferInstanceAs (Decidable (cs.IsChain _))

theorem tight_iff {cs : List Char} :
    Tight cs ↔ (cs.head?.any fun c => !isBlank c) ∧ cs.getLast?.any fun c => !isBlank c := by
  constructor
  · rintro ⟨⟨c, rest, hcons, hc⟩, front, d, hlast, hd⟩
    constructor
    · simp [hcons, hc]
    · simp [hlast, hd]
  · rintro ⟨hfirst, hlast⟩
    obtain ⟨c, hhead, hc⟩ := (Option.any_eq_true _ _).1 hfirst
    obtain ⟨rest, hcons⟩ := List.head?_eq_some_iff.1 hhead
    obtain ⟨d, hgetLast, hd⟩ := (Option.any_eq_true _ _).1 hlast
    obtain ⟨front, happend⟩ := List.getLast?_eq_some_iff.1 hgetLast
    exact ⟨⟨c, rest, hcons, by simpa using hc⟩, front, d, happend, by simpa using hd⟩

instance : DecidablePred Tight := fun _ => decidable_of_iff' _ tight_iff

/-! ### Comments -/

/-- Without a comment, a text that starts with neither a blank nor a comment starts as before. -/
theorem exists_stripComment_eq {c : Char} (hblank : isBlank c = false) (hhash : c ≠ '#')
    (cs : List Char) : ∃ more, stripComment (c :: cs) = c :: more := by
  have hstop : commentScanner.stop commentScanner.start c = false := by
    simp [commentScanner, hhash]
  rw [stripComment, Scanner.cut, Scanner.cutFrom_cons, hstop]
  exact ⟨_, trimEnd_append_of_last hblank [] _⟩

theorem isEmpty_stripComment {c : Char} (hblank : isBlank c = false) (hhash : c ≠ '#')
    (cs : List Char) : (stripComment (c :: cs)).isEmpty = false := by
  obtain ⟨more, hmore⟩ := exists_stripComment_eq hblank hhash cs
  rw [hmore]
  rfl

/-- Whatever quotes have been opened, the scanner does not stop. -/
theorem NoComment.run {cs : List Char} (h : NoComment cs) :
    ∀ q afterBlank, (afterBlank = true → cs.head? ≠ some '#') →
      ∃ st, commentScanner.run (q, afterBlank) cs = some st := by
  induction cs with
  | nil => exact fun q afterBlank _ => ⟨_, rfl⟩
  | cons c cs ih =>
      intro q afterBlank hfirst
      obtain ⟨hnext, hrest⟩ := List.isChain_cons.1 h
      have hstop : commentScanner.stop (q, afterBlank) c = false := by
        cases afterBlank with
        | false => simp [commentScanner]
        | true =>
            have hc : c ≠ '#' := by simpa using hfirst rfl
            simp [commentScanner, hc]
      rw [Scanner.run_cons hstop]
      apply ih hrest
      intro hblank hhash
      exact hnext '#' hhash hblank rfl

theorem NoComment.stripComment_eq {cs : List Char} (h : NoComment cs) (htight : Tight cs)
    (hfirst : cs.head? ≠ some '#') : stripComment cs = cs := by
  obtain ⟨st, hrun⟩ := h.run .plain true fun _ => hfirst
  rw [stripComment, Scanner.cut_of_run hrun, htight.trimEnd_eq]

/-- Without a comment sign there is nothing to take off but blanks. -/
theorem stripComment_of_not_mem {cs : List Char} (h : '#' ∉ cs) : stripComment cs = trimEnd cs := by
  have hcomment : NoComment cs := by
    refine List.Pairwise.isChain (List.pairwise_of_forall_mem_list ?_)
    rintro c - d hd - rfl
    exact h hd
  obtain ⟨st, hrun⟩ := hcomment.run .plain true fun _ hhead => h (List.mem_of_mem_head? hhead)
  rw [stripComment, Scanner.cut_of_run hrun]

/-! ### Keys -/

/-- The colon that is found is the one behind the key, whatever the key holds. -/
theorem NoKeyEnd.blockColonFrom_eq {key rest : List Char} (h : NoKeyEnd key)
    (hcomment : NoComment key) (hrest : atBlank rest = true) :
    ∀ afterBlank seen, (afterBlank = true → key.head? ≠ some '#') →
      blockColonFrom afterBlank seen (key ++ ':' :: rest) = some (seen.reverse ++ key, rest) := by
  induction key with
  | nil =>
      intro afterBlank seen _
      simp [blockColonFrom, hrest]
  | cons c key ih =>
      intro afterBlank seen hfirst
      obtain ⟨hnext, hkey⟩ := List.isChain_cons.1 h
      obtain ⟨hnext', hkey'⟩ := List.isChain_cons.1 hcomment
      have hcolon : ¬(c = ':' && atBlank (key ++ ':' :: rest)) = true := by
        intro hc
        rw [Bool.and_eq_true, decide_eq_true_eq] at hc
        cases key with
        | nil =>
            have hd : isBlank ':' = true := hc.2
            cases hd
        | cons d key =>
            have hd : isBlank d = true := hc.2
            rw [hnext d rfl hc.1] at hd
            cases hd
      have hhash : ¬(c = '#' && afterBlank) = true := by
        intro hc
        rw [Bool.and_eq_true, decide_eq_true_eq] at hc
        exact hfirst hc.2 (by rw [hc.1]; rfl)
      have hbehind : isBlank c = true → key.head? ≠ some '#' := by
        intro hblank hhead
        exact hnext' '#' hhead hblank rfl
      rw [List.cons_append, blockColonFrom, if_neg hcolon, if_neg hhash, ih hkey hkey' _ _ hbehind]
      simp

theorem NoKeyEnd.blockColon_eq {key rest : List Char} (h : NoKeyEnd key)
    (hcomment : NoComment key) (hne : key ≠ [])
    (hfirst : ∀ c ∈ ['"', '\'', '{', '[', '#'], key.head? ≠ some c) (hrest : atBlank rest = true) :
    blockColon (key ++ ':' :: rest) = some (key, rest) := by
  obtain ⟨c, tail, rfl⟩ := List.exists_cons_of_ne_nil hne
  have hc : ∀ d ∈ ['"', '\'', '{', '[', '#'], c ≠ d := by
    intro d hd
    simpa using hfirst d hd
  have hfound := h.blockColonFrom_eq hcomment hrest true [] fun _ => hfirst '#' (by decide)
  rw [List.cons_append] at hfound ⊢
  rw [blockColon, if_neg (by simp [hc '"', hc '\'']), if_neg (by simp [hc '{', hc '[', hc '#'])]
  exact hfound

/-! ### Quotes -/

theorem Quoted.opens_eq_false {cs : List Char} (h : ∀ c ∈ ['"', '\''], cs.head? ≠ some c) :
    Quoted.opens cs = false := by
  cases cs with
  | nil => rfl
  | cons c cs =>
      have hdouble : c ≠ '"' := by simpa using h '"' (by decide)
      have hsingle : c ≠ '\'' := by simpa using h '\'' (by decide)
      simp [Quoted.opens, hdouble, hsingle]

end YamlDecode.Text
