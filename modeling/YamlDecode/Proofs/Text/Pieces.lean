/-
Flow collections cut at their own commas.

All columns inside a flow collection rest on the offsets of its pieces, so nothing may get lost
between them, also where quotes stay open or a bracket is closed that was never opened.

The scanner of commas starts afresh behind each cut, and the depth it counts may be negative there.
What makes this harmless is `Resumes`: a scanner that stops only in the state in which it starts has
forgotten nothing when it starts again.  So each piece is run through from the start, which is why it
cannot be cut once more, and whether a comma separates is told by all the text in front of it, as if
no cut had been made.
-/
import YamlDecode.Proofs.Bytes.Slice
import YamlDecode.Proofs.Text.Split

namespace YamlDecode.Text

namespace Scanner

variable {σ : Type} {s : Scanner σ} {mark : Char}

/-- The scanner stops at its mark in the state in which it starts, and at nothing else, and passing
the mark there would leave it in that state. -/
structure Resumes (s : Scanner σ) (mark : Char) : Prop where
  stop_iff : ∀ st c, s.stop st c = true ↔ st = s.start ∧ c = mark
  step_eq : s.step s.start mark = s.start

/-! ### Pieces one behind the other -/

/-- The pieces are texts with a mark between them, and each is run through from the start. -/
theorem Resumes.piecesFrom_eq (hs : s.Resumes mark) (cs : List Char) :
    ∀ (st : σ) (offset : Nat) (seen : List Char) (done : List Piece),
      s.run s.start seen.reverse = some st → ∃ t ts,
        s.piecesFrom st offset seen done cs = done.reverse ++ piecesAt mark offset (t :: ts) ∧
          ∀ u ∈ t :: ts, ∃ st', s.run s.start u = some st' := by
  induction cs with
  | nil =>
      intro st offset seen done hseen
      refine ⟨seen.reverse, [], List.reverse_cons, ?_⟩
      intro u hu
      rw [List.mem_singleton.1 hu]
      exact ⟨st, hseen⟩
  | cons c cs ih =>
      intro st offset seen done hseen
      rw [piecesFrom]
      by_cases hstop : s.stop st c = true
      · obtain ⟨-, rfl⟩ := (hs.stop_iff st c).1 hstop
        obtain ⟨t, ts, hpieces, hruns⟩ := ih s.start (offset + width seen + c.utf8Size) []
          (⟨offset, seen.reverse⟩ :: done) rfl
        refine ⟨seen.reverse, t :: ts, ?_, List.forall_mem_cons.2 ⟨⟨st, hseen⟩, hruns⟩⟩
        rw [if_pos hstop, hpieces, List.reverse_cons, List.append_assoc, List.singleton_append,
          piecesAt.eq_2 c offset, width_reverse]
      · have hmore : s.run s.start (c :: seen).reverse = some (s.step st c) := by
          rw [List.reverse_cons, run_append hseen, run_cons (by simpa using hstop), run_nil]
        obtain ⟨t, ts, hpieces, hruns⟩ := ih _ offset _ done hmore
        exact ⟨t, ts, by rw [if_neg hstop, hpieces], hruns⟩

theorem Resumes.pieces_eq (hs : s.Resumes mark) (cs : List Char) : ∃ t ts,
    s.pieces cs = piecesAt mark 0 (t :: ts) ∧
      ∀ u ∈ t :: ts, ∃ st, s.run s.start u = some st :=
  hs.piecesFrom_eq cs s.start 0 [] [] rfl

/-- The next text starts behind the mark that follows the one before. -/
theorem isChain_piecesAt (mark : Char) (ts : List (List Char)) : ∀ offset,
    (piecesAt mark offset ts).IsChain fun p q =>
      q.offset = p.offset + width p.text + mark.utf8Size := by
  induction ts with
  | nil => exact fun _ => .nil
  | cons t ts ih =>
      intro offset
      cases ts with
      | nil => exact .singleton _
      | cons u ts => exact .cons_cons rfl (ih _)

/-- A piece is not cut again. -/
theorem Resumes.pieces_text (hs : s.Resumes mark) {p : Piece} {cs : List Char}
    (h : p ∈ s.pieces cs) : s.pieces p.text = [⟨0, p.text⟩] := by
  obtain ⟨t, ts, hpieces, hruns⟩ := hs.pieces_eq cs
  have htext : p.text ∈ t :: ts := by
    rw [← map_text_piecesAt mark (t :: ts) 0, ← hpieces]
    exact List.mem_map_of_mem h
  have hwhole : s.pieces ([mark].intercalate [p.text]) = piecesAt mark 0 [p.text] :=
    pieces_intercalate (fun u hu => hruns u (List.mem_singleton.1 hu ▸ htext)) nofun
  rwa [List.intercalate_singleton] at hwhole

/-! ### Where pieces start -/

theorem exists_front_cons {c : Char} {cs : List Char} {P : List Char → Prop} :
    (∃ front behind, c :: cs = front ++ mark :: behind ∧ P front) ↔
      c = mark ∧ P [] ∨ ∃ front behind, cs = front ++ mark :: behind ∧ P (c :: front) := by
  constructor
  · rintro ⟨- | ⟨d, front⟩, behind, hsplit, hP⟩
    · exact .inl ⟨(List.cons.inj hsplit).1, hP⟩
    · obtain ⟨rfl, hrest⟩ := List.cons.inj hsplit
      exact .inr ⟨front, behind, hrest, hP⟩
  · rintro (⟨rfl, hP⟩ | ⟨front, behind, rfl, hP⟩)
    · exact ⟨[], cs, rfl, hP⟩
    · exact ⟨c :: front, behind, rfl, hP⟩

/-- Behind the first piece there is a piece behind each mark at which the scanner would stop, had it
never started again. -/
theorem Resumes.offset_piecesFrom (hs : s.Resumes mark) (n : Nat) (cs : List Char) :
    ∀ (st : σ) (offset : Nat) (seen : List Char) (done : List Piece),
      (∃ p ∈ s.piecesFrom st offset seen done cs, p.offset = n) ↔
        (∃ p ∈ done, p.offset = n) ∨ n = offset ∨ ∃ front behind, cs = front ++ mark :: behind ∧
          front.foldl s.step st = s.start ∧
            n = offset + width seen + width front + mark.utf8Size := by
  induction cs with
  | nil =>
      intro st offset seen done
      simp [piecesFrom, eq_comm, or_comm]
  | cons c cs ih =>
      intro st offset seen done
      rw [piecesFrom, exists_front_cons]
      simp only [List.foldl_nil, List.foldl_cons, width_nil, width_cons, Nat.add_zero]
      by_cases hstop : s.stop st c = true
      · obtain ⟨rfl, rfl⟩ := (hs.stop_iff st c).1 hstop
        rw [if_pos hstop, ih, hs.step_eq]
        simp [or_assoc, or_left_comm, Nat.add_assoc, eq_comm]
      · have hmark : ¬(c = mark ∧ st = s.start ∧ n = offset + width seen + mark.utf8Size) :=
          fun h => hstop ((hs.stop_iff st c).2 ⟨h.2.1, h.1⟩)
        rw [if_neg hstop, ih, or_iff_right hmark]
        simp only [width_cons, Nat.add_assoc, Nat.add_left_comm]

end Scanner

/-! ### Flow collections -/

/-- Behind the text a comma is one of the collection's own: quotes are closed, and of all brackets
outside of quotes as many have been closed as opened. -/
def AtTopLevel (cs : List Char) : Prop := cs.foldl commaScanner.step commaScanner.start = (.plain, 0)

instance : DecidablePred AtTopLevel := fun cs =>
  inferInstanceAs (Decidable (cs.foldl commaScanner.step commaScanner.start = (.plain, 0)))

theorem commaScanner_resumes : commaScanner.Resumes ',' where
  stop_iff := by
    rintro ⟨q, depth⟩ c
    simp only [commaScanner, Bool.and_eq_true, beq_iff_eq, Prod.mk.injEq]
    exact ⟨fun h => ⟨⟨h.1.2, h.2⟩, h.1.1⟩, fun h => ⟨⟨h.2, h.1.1⟩, h.1.2⟩⟩
  step_eq := rfl

/-- **Cutting at commas loses nothing and leaves nothing to cut.**  The pieces stand in the text at
their offsets, with a comma from one to the next; no piece is cut again; and they start where the text
does and behind each comma that has all quotes and brackets in front of it closed. -/
theorem flowPieces_lossless (text : List Char) :
    (∃ first rest, flowPieces text = first :: rest ∧ first.offset = 0) ∧
      (∀ p ∈ flowPieces text,
        Bytes.slice text p.offset (p.offset + width p.text) = .ok p.text) ∧
      (flowPieces text).IsChain (fun p q => q.offset = p.offset + width p.text + 1) ∧
      [','].intercalate ((flowPieces text).map Scanner.Piece.text) = text ∧
      (∀ p ∈ flowPieces text, flowPieces p.text = [⟨0, p.text⟩]) ∧
      ∀ n, (∃ p ∈ flowPieces text, p.offset = n) ↔
        n = 0 ∨ ∃ front behind, text = front ++ ',' :: behind ∧ AtTopLevel front ∧
          n = width front + 1 := by
  obtain ⟨t, ts, hpieces, -⟩ := commaScanner_resumes.pieces_eq text
  refine ⟨⟨⟨0, t⟩, _, hpieces, rfl⟩, ?_, ?_, intercalate_flowPieces text,
    fun p hp => commaScanner_resumes.pieces_text hp, fun n => ?_⟩
  · intro p hp
    obtain ⟨front, behind, htext, hoffset, -⟩ := mem_flowPieces hp
    rw [htext, hoffset]
    exact Bytes.slice_width front p.text behind
  · rw [flowPieces, hpieces]
    exact Scanner.isChain_piecesAt ',' (t :: ts) 0
  · have hoffsets := commaScanner_resumes.offset_piecesFrom n text commaScanner.start 0 [] []
    simp only [List.not_mem_nil, false_and, exists_false, false_or, width_nil, Nat.zero_add]
      at hoffsets
    exact hoffsets

/-- A closing bracket without an opening one hides the commas behind it, up to an opening one that
nothing closes. -/
example : flowPieces "é, b], c[, d".toList =
    [⟨0, ['é']⟩, ⟨3, " b], c[".toList⟩, ⟨11, [' ', 'd']⟩] := by decide +kernel

end YamlDecode.Text
