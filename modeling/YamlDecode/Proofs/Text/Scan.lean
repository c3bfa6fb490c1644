/-
Texts in which a scanner does not stop.

`run` follows a scanner through a text and gives the state behind it, if there was no stop
on the way.  It is what takes a scan apart at any place one likes (`run_append`), and the
two things done with a scanner are read off it: a text that is run through is not cut, and
one that is run through up to a stop is cut there.
-/
import YamlDecode.Proofs.Text.Blank
import YamlDecode.Text.Scan

namespace YamlDecode.Text

namespace Scanner

variable {σ : Type} (s : Scanner σ)

/-- The state behind a text, unless the scanner stops in it. -/
def run (st : σ) : List Char → Option σ
  | [] => some st
  | c :: cs => if s.stop st c then none else run (s.step st c) cs

variable {s}

@[simp] theorem run_nil (st : σ) : s.run st [] = some st := rfl

theorem run_cons {st : σ} {c : Char} (h : s.stop st c = false) (cs : List Char) :
    s.run st (c :: cs) = s.run (s.step st c) cs := by
  rw [run, h]
  rfl

theorem run_append {st st' : σ} {a : List Char} (h : s.run st a = some st') (b : List Char) :
    s.run st (a ++ b) = s.run st' b := by
  induction a generalizing st with
  | nil =>
      obtain rfl := Option.some.inj h
      rfl
  | cons c a ih =>
      unfold run at h
      split at h
      · cases h
      · next hc => rw [List.cons_append, run_cons (by simpa using hc), ih h]

/-- The state behind a text is the one that its characters lead to. -/
theorem eq_of_run {st st' : σ} {cs : List Char} (h : s.run st cs = some st') :
    st' = cs.foldl s.step st := by
  induction cs generalizing st with
  | nil => exact (Option.some.inj h).symm
  | cons c cs ih =>
      unfold run at h
      split at h
      · cases h
      · exact ih h

/-! ### Cutting -/

private theorem cutFrom_run {st st' : σ} {cs : List Char} (h : s.run st cs = some st')
    (rest : List Char) :
    s.cutFrom st [] (cs ++ rest) =
      (cs ++ (s.cutFrom st' [] rest).1, (s.cutFrom st' [] rest).2) := by
  induction cs generalizing st with
  | nil =>
      obtain rfl := Option.some.inj h
      rfl
  | cons c cs ih =>
      unfold run at h
      split at h
      · cases h
      · next hc =>
        rw [List.cons_append, cutFrom_cons, if_neg hc, ih h]
        rfl

/-- A text without a stop is not cut. -/
theorem cut_of_run {st : σ} {cs : List Char} (h : s.run s.start cs = some st) :
    s.cut cs = (cs, []) := by
  have := cutFrom_run h []
  rwa [List.append_nil, cutFrom, List.reverse_nil, List.append_nil] at this

/-- A text without a stop stays whole in front of what follows it. -/
theorem cut_append_of_run {st : σ} {cs : List Char} (h : s.run s.start cs = some st)
    (rest : List Char) : ∃ more, (s.cut (cs ++ rest)).1 = cs ++ more := by
  rw [cut, cutFrom_run h rest]
  exact ⟨_, rfl⟩

/-- A text is cut at its first stop. -/
theorem cut_of_stop {st : σ} {cs : List Char} {c : Char} (h : s.run s.start cs = some st)
    (hc : s.stop st c = true) (rest : List Char) :
    s.cut (cs ++ c :: rest) = (cs, c :: rest) := by
  have := cutFrom_run h (c :: rest)
  rwa [cutFrom_cons, if_pos hc, List.append_nil] at this

/-! ### Pieces -/

private theorem piecesFrom_run {st st' : σ} {cs : List Char} (h : s.run st cs = some st')
    (offset : Nat) (seen : List Char) (done : List Piece) (rest : List Char) :
    s.piecesFrom st offset seen done (cs ++ rest) =
      s.piecesFrom st' offset (cs.reverse ++ seen) done rest := by
  induction cs generalizing st seen with
  | nil =>
      obtain rfl := Option.some.inj h
      rfl
  | cons c cs ih =>
      unfold run at h
      split at h
      · cases h
      · next hc =>
        rw [List.cons_append, piecesFrom, if_neg hc, ih h]
        simp

private theorem piecesFrom_head (cs : List Char) :
    ∀ (st : σ) (offset : Nat) (seen : List Char) (done : List Piece), ∃ more behind,
      s.piecesFrom st offset seen done cs =
        done.reverse ++ ⟨offset, seen.reverse ++ more⟩ :: behind := by
  induction cs with
  | nil =>
      intro st offset seen done
      refine ⟨[], [], ?_⟩
      rw [piecesFrom, List.reverse_cons, List.append_nil]
  | cons c cs ih =>
      intro st offset seen done
      rw [piecesFrom]
      by_cases hstop : s.stop st c = true
      · obtain ⟨more, behind, h⟩ := ih s.start (offset + width seen + c.utf8Size) []
          (⟨offset, seen.reverse⟩ :: done)
        refine ⟨[], ⟨offset + width seen + c.utf8Size, more⟩ :: behind, ?_⟩
        rw [if_pos hstop, h, List.reverse_cons, List.append_assoc, List.append_nil]
        rfl
      · obtain ⟨more, behind, h⟩ := ih (s.step st c) offset (c :: seen) done
        refine ⟨c :: more, behind, ?_⟩
        rw [if_neg hstop, h, List.reverse_cons, List.append_assoc]
        rfl

/-- The first piece starts with whatever is run through at the start. -/
theorem pieces_append_of_run {st : σ} {cs : List Char} (h : s.run s.start cs = some st)
    (rest : List Char) :
    ∃ more behind, s.pieces (cs ++ rest) = ⟨0, cs ++ more⟩ :: behind := by
  obtain ⟨more, behind, hpieces⟩ := piecesFrom_head rest st 0 cs.reverse []
  refine ⟨more, behind, ?_⟩
  rw [List.reverse_reverse] at hpieces
  rw [pieces, piecesFrom_run h, List.append_nil]
  exact hpieces

/-- Texts with a mark between them, each at the place where it starts. -/
def piecesAt (mark : Char) (offset : Nat) : List (List Char) → List Piece
  | [] => []
  | t :: ts => ⟨offset, t⟩ :: piecesAt mark (offset + width t + mark.utf8Size) ts

theorem map_text_piecesAt (mark : Char) (ts : List (List Char)) :
    ∀ offset, (piecesAt mark offset ts).map Piece.text = ts := by
  induction ts with
  | nil => exact fun _ => rfl
  | cons t ts ih =>
      intro offset
      rw [piecesAt, List.map_cons, ih]

/-- Texts that are run through up to the mark behind them are the pieces.  Behind the last one
there is no mark. -/
theorem pieces_intercalate {mark : Char} {t : List Char} {ts : List (List Char)}
    (hrun : ∀ cs ∈ t :: ts, ∃ st, s.run s.start cs = some st)
    (hstop : ∀ cs ∈ (t :: ts).dropLast, ∃ st, s.run s.start cs = some st ∧ s.stop st mark = true) :
    s.pieces ([mark].intercalate (t :: ts)) = piecesAt mark 0 (t :: ts) := by
  have key : ∀ (ts : List (List Char)) (t : List Char) (offset : Nat) (done : List Piece),
      (∀ cs ∈ t :: ts, ∃ st, s.run s.start cs = some st) →
      (∀ cs ∈ (t :: ts).dropLast, ∃ st, s.run s.start cs = some st ∧ s.stop st mark = true) →
        s.piecesFrom s.start offset [] done ([mark].intercalate (t :: ts)) =
          done.reverse ++ piecesAt mark offset (t :: ts) := by
    intro ts
    induction ts with
    | nil =>
        intro t offset done hrun _
        obtain ⟨st, hst⟩ := hrun t (by simp)
        have := piecesFrom_run hst offset [] done []
        rw [List.append_nil, List.append_nil] at this
        rw [List.intercalate_singleton, this, piecesFrom, List.reverse_cons, List.reverse_reverse]
        rfl
    | cons u ts ih =>
        intro t offset done hrun hstop
        obtain ⟨st, hst, hmark⟩ := hstop t (by simp)
        rw [List.intercalate_cons_cons, List.append_assoc, piecesFrom_run hst, List.singleton_append,
          piecesFrom, if_pos hmark, List.append_nil, width_reverse, List.reverse_reverse,
          ih u _ _ (fun cs hcs => hrun cs (by simp [hcs])) (fun cs hcs => hstop cs (by simp [hcs])),
          List.reverse_cons, List.append_assoc]
        rfl
  exact key ts t 0 [] hrun hstop

end Scanner

end YamlDecode.Text
