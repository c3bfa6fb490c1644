/-
Texts that stand in others as a whole.

A `Whole` text is passed over by the scanners that look for comments and commas: they
leave it in the state in which they entered it, whatever quotes and brackets it holds.
Quoted texts and plain words are whole, and what is put together from whole texts with
colons, commas and brackets is whole again.  That is the whole argument for why values on
one line are taken apart at the places where they were put together.
-/
import YamlDecode.Proofs.Text.Blank
import YamlDecode.Proofs.Text.Quoted

namespace YamlDecode.Text

/-- The text fits on a line, has no blanks around it, and holds no comment and no comma that
separates anything outside of it. -/
structure Whole (cs : List Char) : Prop where
  tight : Tight cs
  newline : '\n' ∉ cs
  comment : ∀ b, commentScanner.run (.plain, b) cs = some (.plain, false)
  comma : ∀ depth : Int, 0 ≤ depth → commaScanner.run (.plain, depth) cs = some (.plain, depth)

namespace Whole

variable {cs : List Char}

/-- A whole text loses nothing when comments are taken off. -/
theorem stripComment_eq (h : Whole cs) : stripComment cs = cs := by
  rw [stripComment, Scanner.cut_of_run (h.comment true), h.tight.trimEnd_eq]

/-! ### What is whole -/

theorem write (cs : List Char) : Whole (Quoted.write cs) where
  tight := (tight_singleton (c := '"') rfl).append (tight_singleton (c := '"') rfl)
  newline := Quoted.newline_not_mem_write cs
  comment b := run_comment_write b cs
  comma depth _ := run_comma_write depth cs

end Whole

/-! ### Plain words -/

/-- The characters of plain words: small letters, digits and the minus sign. -/
def isWordChar (c : Char) : Bool := ('a' ≤ c && c ≤ 'z') || c.isDigit || c == '-'

/-- A text of at least one character, all of them characters of plain words. -/
structure Word (cs : List Char) : Prop where
  nonempty : cs ≠ []
  all : ∀ c ∈ cs, isWordChar c = true

theorem ne_of_wordChar {c d : Char} (hc : isWordChar c = true) (hd : isWordChar d = false) :
    c ≠ d := by
  rintro rfl
  rw [hc] at hd
  cases hd

theorem range_of_wordChar {c : Char} (h : isWordChar c = true) :
    0x20 < c.toNat ∧ c.toNat < 0x7F := by
  simp only [isWordChar, Char.isDigit, Char.le_def, Bool.or_eq_true, Bool.and_eq_true,
    decide_eq_true_eq, beq_iff_eq, UInt32.le_iff_toNat_le] at h
  rcases h with (h | h) | rfl
  · exact ⟨Nat.lt_of_lt_of_le (by decide) h.1, Nat.lt_of_le_of_lt h.2 (by decide)⟩
  · exact ⟨Nat.lt_of_lt_of_le (by decide) h.1, Nat.lt_of_le_of_lt h.2 (by decide)⟩
  · decide

theorem isBlank_of_wordChar {c : Char} (h : isWordChar c = true) : isBlank c = false := by
  have hrange := range_of_wordChar h
  rw [← Bool.not_eq_true, isBlank]
  simp only [Bool.or_eq_true, Bool.and_eq_true, decide_eq_true_eq, beq_iff_eq]
  omega

theorem Quoting.step_wordChar {c : Char} (h : isWordChar c = true) :
    Quoting.plain.step c = .plain := by
  rw [Quoting.step, if_neg (ne_of_wordChar h rfl), if_neg (ne_of_wordChar h rfl)]

theorem run_comment_word {c : Char} (hc : isWordChar c = true) (b : Bool) (cs : List Char) :
    commentScanner.run (.plain, b) (c :: cs) = commentScanner.run (.plain, false) cs := by
  have hhash : c ≠ '#' := ne_of_wordChar hc rfl
  have hstep : commentScanner.step (.plain, b) c = (.plain, false) := by
    show (Quoting.plain.step c, isBlank c) = _
    rw [Quoting.step_wordChar hc, isBlank_of_wordChar hc]
  rw [Scanner.run_cons (by simp [commentScanner, hhash]), hstep]

theorem run_comma_word {c : Char} (hc : isWordChar c = true) (depth : Int) (cs : List Char) :
    commaScanner.run (.plain, depth) (c :: cs) = commaScanner.run (.plain, depth) cs := by
  have hne : ∀ d, isWordChar d = false → c ≠ d := fun d => ne_of_wordChar hc
  have hstep : commaScanner.step (.plain, depth) c = (.plain, depth) := by
    simp [commaScanner, Quoting.step_wordChar hc, hne '{' rfl, hne '[' rfl, hne '}' rfl, hne ']' rfl]
  rw [Scanner.run_cons (by simp [commaScanner, hne ',' rfl]), hstep]

theorem Word.whole {cs : List Char} (h : Word cs) : Whole cs where
  tight := tight_of_forall h.nonempty fun c hc => isBlank_of_wordChar (h.all c hc)
  newline := fun hmem => ne_of_wordChar (h.all _ hmem) (d := '\n') rfl rfl
  comment b := by
    obtain ⟨c, rest, rfl⟩ := List.exists_cons_of_ne_nil h.nonempty
    rw [run_comment_word (h.all c (by simp))]
    have hrest : ∀ d ∈ rest, isWordChar d = true := fun d hd => h.all d (by simp [hd])
    clear h
    induction rest with
    | nil => rfl
    | cons d rest ih =>
        rw [run_comment_word (hrest d (by simp))]
        exact ih fun e he => hrest e (by simp [he])
  comma depth _ := by
    obtain ⟨-, hall⟩ := h
    induction cs with
    | nil => rfl
    | cons c cs ih =>
        rw [run_comma_word (hall c (by simp))]
        exact ih fun d hd => hall d (by simp [hd])

/-! ### Entries and collections -/

/-- The text of texts with a comma and a space between them. -/
def commaJoin (ts : List (List Char)) : List Char := [',', ' '].intercalate ts

theorem commaJoin_singleton (t : List Char) : commaJoin [t] = t := List.intercalate_singleton

theorem commaJoin_cons_cons (t u : List Char) (ts : List (List Char)) :
    commaJoin (t :: u :: ts) = t ++ ',' :: ' ' :: commaJoin (u :: ts) := by
  rw [commaJoin, List.intercalate_cons_cons, List.append_assoc]
  rfl

/-- A text that is put in front of the first item goes in front of all of them. -/
theorem commaJoin_append_cons (front t : List Char) (ts : List (List Char)) :
    commaJoin ((front ++ t) :: ts) = front ++ commaJoin (t :: ts) := by
  cases ts with
  | nil => rw [commaJoin_singleton, commaJoin_singleton]
  | cons u ts => rw [commaJoin_cons_cons, commaJoin_cons_cons, List.append_assoc]

theorem not_mem_commaJoin {c : Char} (hc : c ∉ [',', ' ']) {ts : List (List Char)}
    (h : ∀ t ∈ ts, c ∉ t) : c ∉ commaJoin ts := by
  induction ts with
  | nil => exact List.not_mem_nil
  | cons t ts ih =>
      have ht := h t (by simp)
      have hrest := ih fun u hu => h u (by simp [hu])
      cases ts with
      | nil => rwa [commaJoin_singleton]
      | cons u ts =>
          rw [commaJoin_cons_cons]
          simp only [List.mem_cons, List.not_mem_nil, or_false, not_or] at hc
          simp [ht, hrest, hc.1, hc.2]

namespace Whole

/-- A key, a colon and a value. -/
theorem entry {a b : List Char} (ha : Whole a) (hb : Whole b) : Whole (a ++ ([':', ' '] ++ b)) where
  tight := ha.tight.append hb.tight
  newline := by
    simp [ha.newline, hb.newline]
  comment x := by
    rw [Scanner.run_append (ha.comment x)]
    exact hb.comment true
  comma depth h := by
    have hcolon : commaScanner.run (.plain, depth) [':', ' '] = some (.plain, depth) := rfl
    rw [Scanner.run_append (ha.comma depth h), Scanner.run_append hcolon]
    exact hb.comma depth h

end Whole

theorem width_le_commaJoin {t : List Char} {ts : List (List Char)} (h : t ∈ ts) :
    width t ≤ width (commaJoin ts) :=
  width_le_intercalate h

/-- What holds of whole texts and is kept when texts are joined holds of all of them together. -/
theorem commaJoin_induction {P : List Char → Prop} {ts : List (List Char)}
    (h : ∀ t ∈ ts, Whole t) (nil : P []) (one : ∀ t, Whole t → P t)
    (more : ∀ t rest, Whole t → P rest → P (t ++ ([',', ' '] ++ rest))) : P (commaJoin ts) := by
  induction ts with
  | nil => exact nil
  | cons t ts ih =>
      have ht := h t (by simp)
      rcases ts with - | ⟨u, ts⟩
      · rw [commaJoin_singleton]
        exact one t ht
      · rw [commaJoin_cons_cons]
        exact more t _ ht (ih fun t' ht' => h t' (by simp [ht']))

theorem newline_not_mem_commaJoin {ts : List (List Char)} (h : ∀ t ∈ ts, Whole t) :
    '\n' ∉ commaJoin ts :=
  not_mem_commaJoin (by decide) fun t ht => (h t ht).newline

theorem run_comment_commaJoin {ts : List (List Char)} (h : ∀ t ∈ ts, Whole t) :
    ∀ b, ∃ b', commentScanner.run (.plain, b) (commaJoin ts) = some (.plain, b') := by
  refine commaJoin_induction
    (P := fun cs => ∀ b, ∃ b', commentScanner.run (.plain, b) cs = some (.plain, b')) h
    (fun b => ⟨b, rfl⟩) (fun t ht b => ⟨false, ht.comment b⟩) ?_
  intro t rest ht hrest b
  obtain ⟨b', hrun⟩ := hrest true
  refine ⟨b', ?_⟩
  rw [Scanner.run_append (ht.comment b)]
  exact hrun

/-- The commas between items do not separate what stands around their brackets. -/
theorem run_comma_commaJoin {ts : List (List Char)} (h : ∀ t ∈ ts, Whole t) {depth : Int}
    (hdepth : 0 < depth) :
    commaScanner.run (.plain, depth) (commaJoin ts) = some (.plain, depth) := by
  have hle : 0 ≤ depth := by omega
  refine commaJoin_induction
    (P := fun cs => commaScanner.run (.plain, depth) cs = some (.plain, depth)) h
    rfl (fun t ht => ht.comma depth hle) ?_
  intro t rest ht hrest
  have hsep : commaScanner.run (.plain, depth) [',', ' '] = some (.plain, depth) := by
    have hne : depth ≠ 0 := by omega
    simp [Scanner.run, commaScanner, hne, Quoting.step]
  rw [Scanner.run_append (ht.comma depth hle), Scanner.run_append hsep, hrest]

/-- The two kinds of brackets around the items of a collection. -/
inductive Brackets : Char → Char → Prop
  | square : Brackets '[' ']'
  | curly : Brackets '{' '}'

theorem Brackets.isBlank_eq {opening closing : Char} (h : Brackets opening closing) :
    isBlank opening = false := by
  rcases h with - | -
  all_goals rfl

/-- A collection of whole texts in brackets. -/
theorem Whole.collection {opening closing : Char} (hb : Brackets opening closing)
    {ts : List (List Char)} (h : ∀ t ∈ ts, Whole t) :
    Whole (opening :: (commaJoin ts ++ [closing])) where
  tight := by
    rcases hb with - | -
    all_goals exact (tight_singleton rfl).append (tight_singleton rfl)
  newline := by
    rcases hb with - | -
    all_goals simp [newline_not_mem_commaJoin h]
  comment b := by
    obtain ⟨b', hrun⟩ := run_comment_commaJoin h false
    rcases hb with - | -
    all_goals
      rw [Scanner.run_cons rfl]
      show commentScanner.run (.plain, false) (commaJoin ts ++ _) = _
      rw [Scanner.run_append hrun]
      rfl
  comma depth hdepth := by
    have hpos : 0 < depth + 1 := by omega
    have hrun := run_comma_commaJoin h hpos
    have hback : depth + 1 - 1 = depth := by omega
    rcases hb with - | -
    all_goals
      rw [Scanner.run_cons rfl]
      show commaScanner.run (.plain, depth + 1) (commaJoin ts ++ _) = _
      rw [Scanner.run_append hrun, Scanner.run_cons rfl]
      show some (Quoting.plain, depth + 1 - 1) = _
      rw [hback]

/-! ### Taking collections apart -/

theorem commaJoin_cons (t : List Char) (ts : List (List Char)) :
    commaJoin (t :: ts) = [','].intercalate (t :: ts.map (' ' :: ·)) := by
  have hspace : ∀ (u : List Char) (us : List (List Char)),
      [','].intercalate ((' ' :: u) :: us) = ' ' :: [','].intercalate (u :: us) := by
    intro u us
    rcases us with - | ⟨w, us⟩
    · rw [List.intercalate_singleton, List.intercalate_singleton]
    · rw [List.intercalate_cons_cons, List.intercalate_cons_cons]
      rfl
  induction ts generalizing t with
  | nil => rfl
  | cons u ts ih =>
      rw [commaJoin_cons_cons, ih, List.map_cons, List.intercalate_cons_cons, hspace]
      simp

/-- Items are the pieces of the text they are joined to, with a space in front of all but the
first, if none of them holds a comma that separates and none but the last leaves anything open. -/
theorem flowPieces_commaJoin {t : List Char} {ts : List (List Char)}
    (hrun : ∀ u ∈ t :: ts, ∃ st, commaScanner.run (.plain, 0) u = some st)
    (hclosed : ∀ u ∈ (t :: ts).dropLast, commaScanner.run (.plain, 0) u = some (.plain, 0)) :
    flowPieces (commaJoin (t :: ts)) =
      Scanner.piecesAt ',' 0 (t :: ts.map (' ' :: ·)) := by
  rw [commaJoin_cons]
  refine Scanner.pieces_intercalate ?_ ?_
  · intro cs hcs
    rcases List.mem_cons.1 hcs with rfl | hcs
    · exact hrun cs (by simp)
    · obtain ⟨u, hu, rfl⟩ := List.mem_map.1 hcs
      exact hrun u (by simp [hu])
  · intro cs hcs
    refine ⟨(.plain, 0), ?_, rfl⟩
    cases ts with
    | nil => cases hcs
    | cons u ts =>
        rw [List.dropLast_cons_of_ne_nil (by simp)] at hcs hclosed
        rcases List.mem_cons.1 hcs with rfl | hcs
        · exact hclosed cs (by simp)
        · rw [← List.map_dropLast] at hcs
          obtain ⟨w, hw, rfl⟩ := List.mem_map.1 hcs
          exact hclosed w (by simp [hw])

theorem map_text_flowPieces {t : List Char} {ts : List (List Char)} (h : ∀ u ∈ t :: ts, Whole u) :
    (flowPieces (commaJoin (t :: ts))).map Scanner.Piece.text = t :: ts.map (' ' :: ·) := by
  have hrun : ∀ u ∈ t :: ts, commaScanner.run (.plain, 0) u = some (.plain, 0) :=
    fun u hu => (h u hu).comma 0 (Int.le_refl 0)
  have hlast : ∀ u ∈ (t :: ts).dropLast, u ∈ t :: ts := fun u hu => List.dropLast_subset _ hu
  rw [flowPieces_commaJoin (fun u hu => ⟨_, hrun u hu⟩) fun u hu => hrun u (hlast u hu),
    Scanner.map_text_piecesAt]

/-- Without the blanks around them, the pieces of a collection are its items. -/
theorem map_trim_flowPieces {ts : List (List Char)} (hne : ts ≠ []) (h : ∀ t ∈ ts, Whole t) :
    (flowPieces (commaJoin ts)).map (fun p => trim p.text) = ts := by
  obtain ⟨t, ts, rfl⟩ := List.exists_cons_of_ne_nil hne
  have htrim : ∀ us : List (List Char), (∀ u ∈ us, Whole u) → us.map trim = us := by
    intro us hus
    rw [List.map_congr_left fun u hu => (hus u hu).tight.trim_eq, List.map_id']
  calc (flowPieces (commaJoin (t :: ts))).map (fun p => trim p.text)
      = ((flowPieces (commaJoin (t :: ts))).map Scanner.Piece.text).map trim := by
        rw [List.map_map]
        rfl
    _ = trim t :: ts.map trim := by
        rw [map_text_flowPieces h, List.map_cons, List.map_map]
        rfl
    _ = t :: ts := htrim (t :: ts) h

end YamlDecode.Text
