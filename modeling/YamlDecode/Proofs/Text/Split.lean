/-
Texts taken apart.

Whatever a reader takes out of a text stands somewhere in it, and this says where: a trimmed
text in front of blanks, a key in front of its colon, a piece of a flow collection in front
of a comma or at the end.  Positions are counted along these places.

A quoted text is read in the same way whatever follows it, as long as that is no quote, which
could make two quotes of a closing one.
-/
import Mathlib.Data.List.DropRight
import Mathlib.Data.List.TakeWhile
import YamlDecode.Proofs.Text.Scan
import YamlDecode.Proofs.Text.Spelling

namespace YamlDecode.Text

/-! ### Blanks -/

/-- A text that does not start with a blank starts with none whatever ends it. -/
theorem trimStart_eq_of_append {front behind : List Char}
    (h : trimStart (front ++ behind) = front ++ behind) : trimStart front = front := by
  rw [trimStart_eq_self] at h ⊢
  cases front with
  | nil => rfl
  | cons c cs => exact h

theorem trimStart_trimStart (cs : List Char) : trimStart (trimStart cs) = trimStart cs :=
  List.dropWhile_idempotent isBlank cs

/-- A trimmed text stands in front of blanks. -/
theorem trim_append (cs : List Char) :
    ∃ blanks, trim cs ++ blanks = trimStart cs ∧ allBlank blanks = true :=
  trimEnd_append (trimStart cs)

theorem trimStart_trim (cs : List Char) : trimStart (trim cs) = trim cs := by
  obtain ⟨blanks, happend, -⟩ := trim_append cs
  have h := trimStart_trimStart cs
  rw [← happend] at h
  exact trimStart_eq_of_append h

theorem trimEnd_trimEnd (cs : List Char) : trimEnd (trimEnd cs) = trimEnd cs := by
  rw [trimEnd, trimEnd, List.reverse_reverse, List.dropWhile_idempotent isBlank cs.reverse]

theorem trim_subset (cs : List Char) : trim cs ⊆ cs := by
  obtain ⟨blanks, happend, -⟩ := trim_append cs
  have hfront : trim cs ⊆ trimStart cs := happend ▸ List.subset_append_left _ _
  exact List.Subset.trans hfront (List.dropWhile_sublist isBlank).subset

theorem stripComment_append (cs : List Char) : ∃ behind, stripComment cs ++ behind = cs := by
  obtain ⟨blanks, happend, -⟩ := trimEnd_append (commentScanner.cut cs).1
  refine ⟨blanks ++ (commentScanner.cut cs).2, ?_⟩
  rw [← List.append_assoc, stripComment, happend, commentScanner.cut_append]

/-! ### Colons -/

theorem flowColon_eq_some {cs before after : List Char}
    (h : flowColon cs = some (before, after)) : cs = before ++ ':' :: after := by
  have happend := flowColonScanner.cut_append cs
  unfold flowColon at h
  split at h
  · cases h
  · next before' c after' hcut =>
    cases h
    have hstop := flowColonScanner.stop_of_cut cs _ _ _ _ hcut
    have hc : c = ':' := by
      simp only [flowColonScanner, Bool.and_eq_true, beq_iff_eq] at hstop
      exact hstop.1.1.1
    rw [hcut, hc] at happend
    exact happend.symm

theorem blockColonFrom_eq_some {cs before after : List Char} :
    ∀ {afterBlank : Bool} {seen : List Char},
      blockColonFrom afterBlank seen cs = some (before, after) →
        seen.reverse ++ cs = before ++ ':' :: after := by
  induction cs with
  | nil => nofun
  | cons c cs ih =>
      intro afterBlank seen h
      unfold blockColonFrom at h
      split at h
      · next hcolon =>
        cases h
        rw [of_decide_eq_true (Bool.and_eq_true_iff.1 hcolon).1]
      split at h
      · cases h
      · have happend := ih h
        rwa [List.reverse_cons, List.append_assoc, List.singleton_append] at happend

theorem closeDouble_eq_some {seen cs quoted rest : List Char}
    (h : closeDouble seen cs = some (quoted, rest)) : seen.reverse ++ cs = quoted ++ rest := by
  fun_induction closeDouble seen cs with
  | case1 => cases h
  | case2 seen c cs ih => simpa using ih h
  | case3 seen cs =>
      cases h
      simp
  | case4 seen c cs hescape hc ih => simpa using ih h

theorem closeSingle_eq_some {seen cs quoted rest : List Char}
    (h : closeSingle seen cs = some (quoted, rest)) : seen.reverse ++ cs = quoted ++ rest := by
  fun_induction closeSingle seen cs with
  | case1 => cases h
  | case2 seen cs ih => simpa using ih h
  | case3 seen cs =>
      cases h
      simp
  | case4 seen c cs hescape hc ih => simpa using ih h

theorem closingQuote_eq_some {cs quoted rest : List Char}
    (h : closingQuote cs = some (quoted, rest)) : cs = quoted ++ rest := by
  unfold closingQuote at h
  split at h
  · exact closeDouble_eq_some h
  · exact closeSingle_eq_some h
  · cases h

theorem blockColon_eq_some {cs before after : List Char}
    (h : blockColon cs = some (before, after)) : cs = before ++ ':' :: after := by
  unfold blockColon at h
  split at h
  · cases h
  split at h
  · split at h
    · cases h
    · next quoted rest hquote =>
      obtain ⟨⟨front, behind⟩, hcolon, hpair⟩ := Option.map_eq_some_iff.1 h
      cases hpair
      rw [closingQuote_eq_some hquote, List.append_assoc, ← blockColonFrom_eq_some hcolon]
      rfl
  split at h
  · cases h
  · exact blockColonFrom_eq_some h

/-! ### Pieces -/

/-- A piece stands in the text at its offset, and in front of a stop or at the end. -/
theorem Scanner.mem_piecesFrom {σ : Type} {s : Scanner σ} {p : Piece} {cs : List Char} :
    ∀ {st : σ} {offset : Nat} {seen : List Char} {done : List Piece},
      p ∈ s.piecesFrom st offset seen done cs → p ∈ done ∨
        ∃ front behind, seen.reverse ++ cs = front ++ (p.text ++ behind) ∧
          p.offset = offset + width front ∧
          ∀ c ∈ behind.head?, ∃ st, s.stop st c = true := by
  induction cs with
  | nil =>
      intro st offset seen done h
      rcases List.mem_cons.1 (List.mem_reverse.1 h) with rfl | h
      · exact .inr ⟨[], [], by simp, by simp, nofun⟩
      · exact .inl h
  | cons c cs ih =>
      intro st offset seen done h
      unfold piecesFrom at h
      split at h
      · next hstop =>
        rcases ih h with h | ⟨front, behind, hcs, hoffset, hbehind⟩
        · rcases List.mem_cons.1 h with rfl | h
          · refine .inr ⟨[], c :: cs, rfl, rfl, ?_⟩
            rintro d ⟨⟩
            exact ⟨st, hstop⟩
          · exact .inl h
        · refine .inr ⟨seen.reverse ++ c :: front, behind, ?_, ?_, hbehind⟩
          · rw [List.append_assoc, List.cons_append, ← hcs]
            rfl
          · rw [hoffset, width_append, width_reverse, width_cons]
            omega
      · rcases ih h with h | ⟨front, behind, hcs, hoffset, hbehind⟩
        · exact .inl h
        · refine .inr ⟨front, behind, ?_, hoffset, hbehind⟩
          rwa [List.reverse_cons, List.append_assoc, List.singleton_append] at hcs

theorem mem_flowPieces {p : Scanner.Piece} {cs : List Char} (h : p ∈ flowPieces cs) :
    ∃ front behind, cs = front ++ (p.text ++ behind) ∧ p.offset = width front ∧
      ∀ c ∈ behind.head?, c = ',' := by
  rcases Scanner.mem_piecesFrom h with h | ⟨front, behind, hcs, hoffset, hbehind⟩
  · cases h
  · refine ⟨front, behind, hcs, by omega, ?_⟩
    intro c hc
    obtain ⟨st, hstop⟩ := hbehind c hc
    simp only [commaScanner, Bool.and_eq_true, beq_iff_eq] at hstop
    exact hstop.1.1

/-- With the mark between them, the pieces of a text are that text again. -/
theorem Scanner.intercalate_piecesFrom {σ : Type} {s : Scanner σ} {mark : Char}
    (hmark : ∀ st c, s.stop st c = true → c = mark) (cs : List Char) :
    ∀ (st : σ) (offset : Nat) (seen : List Char) (done : List Piece), ∃ p ps,
      s.piecesFrom st offset seen done cs = done.reverse ++ p :: ps ∧
        [mark].intercalate ((p :: ps).map Piece.text) = seen.reverse ++ cs := by
  induction cs with
  | nil =>
      intro st offset seen done
      refine ⟨⟨offset, seen.reverse⟩, [], List.reverse_cons, ?_⟩
      rw [List.map_singleton, List.intercalate_singleton, List.append_nil]
  | cons c cs ih =>
      intro st offset seen done
      unfold piecesFrom
      by_cases hstop : s.stop st c = true
      · obtain ⟨p, ps, hpieces, htext⟩ := ih s.start (offset + width seen + c.utf8Size) []
          (⟨offset, seen.reverse⟩ :: done)
        refine ⟨⟨offset, seen.reverse⟩, p :: ps, ?_, ?_⟩
        · rw [if_pos hstop, hpieces, List.reverse_cons, List.append_assoc]
          rfl
        · rw [List.map_cons, List.map_cons, List.intercalate_cons_cons, ← List.map_cons, htext,
            hmark st c hstop, List.append_assoc]
          rfl
      · obtain ⟨p, ps, hpieces, htext⟩ := ih (s.step st c) offset (c :: seen) done
        refine ⟨p, ps, ?_, ?_⟩
        · rw [if_neg hstop, hpieces]
        · rw [htext, List.reverse_cons, List.append_assoc]
          rfl

theorem intercalate_flowPieces (cs : List Char) :
    [','].intercalate ((flowPieces cs).map Scanner.Piece.text) = cs := by
  have hmark : ∀ st c, commaScanner.stop st c = true → c = ',' := by
    intro st c hstop
    simp only [commaScanner, Bool.and_eq_true, beq_iff_eq] at hstop
    exact hstop.1.1
  obtain ⟨p, ps, hpieces, htext⟩ :=
    Scanner.intercalate_piecesFrom hmark cs commaScanner.start 0 [] []
  rw [List.reverse_nil, List.nil_append] at hpieces
  rw [flowPieces, Scanner.pieces, hpieces]
  exact htext

/-- Pieces stand behind one another, each at least a mark further on than the one before. -/
theorem Scanner.pairwise_piecesFrom {σ : Type} (s : Scanner σ) (cs : List Char) :
    ∀ (st : σ) (offset : Nat) (seen : List Char) (done : List Piece),
      done.reverse.Pairwise (fun p q => p.offset + width p.text < q.offset) →
      (∀ p ∈ done, p.offset + width p.text < offset) →
      (s.piecesFrom st offset seen done cs).Pairwise
        fun p q => p.offset + width p.text < q.offset := by
  have hlast : ∀ (p : Piece) (done : List Piece),
      done.reverse.Pairwise (fun p q => p.offset + width p.text < q.offset) →
      (∀ q ∈ done, q.offset + width q.text < p.offset) →
      (p :: done).reverse.Pairwise fun p q => p.offset + width p.text < q.offset := by
    intro p done hdone hbefore
    rw [List.reverse_cons, List.pairwise_append]
    refine ⟨hdone, List.pairwise_singleton _ _, ?_⟩
    intro q hq q' hq'
    rw [List.mem_singleton.1 hq']
    exact hbefore q (List.mem_reverse.1 hq)
  induction cs with
  | nil =>
      intro st offset seen done hdone hbefore
      exact hlast _ _ hdone hbefore
  | cons c cs ih =>
      intro st offset seen done hdone hbefore
      unfold piecesFrom
      split
      · refine ih _ _ _ _ (hlast _ _ hdone hbefore) (List.forall_mem_cons.2 ⟨?_, ?_⟩)
        · have hpos := c.utf8Size_pos
          show offset + width seen.reverse < offset + width seen + c.utf8Size
          rw [width_reverse]
          omega
        · intro p hp
          have := hbefore p hp
          omega
      · exact ih _ _ _ _ hdone hbefore

theorem pairwise_flowPieces (cs : List Char) :
    (flowPieces cs).Pairwise fun p q => p.offset + width p.text < q.offset :=
  commaScanner.pairwise_piecesFrom cs _ _ _ _ List.Pairwise.nil nofun

/-! ### Quoted texts -/

namespace Quoted

/-- A quoted text is read in the same way in front of anything but a quote. -/
theorem read_append {cs value rest more : List Char} (h : read cs = .ok (value, rest))
    (hmore : more.head? ≠ some '\'') : read (cs ++ more) = .ok (value, rest ++ more) := by
  unfold read at h
  split at h
  · exact readDouble_eq_ok.2 ((readDouble_eq_ok.1 h).append more)
  · obtain ⟨htext, hrest⟩ := readSingle_eq_ok.1 h
    refine readSingle_eq_ok.2 ⟨htext.append more, ?_⟩
    cases rest with
    | nil => exact hmore
    | cons c rest => exact hrest
  · cases h

theorem opens_append {cs : List Char} (h : opens cs = true) (more : List Char) :
    opens (cs ++ more) = true := by
  cases cs with
  | nil => cases h
  | cons c cs => exact h

end Quoted

end YamlDecode.Text
