/-
Where a quoted text ends.

The reader of quoted texts is not the only one that has to know: the search for a closing quote, and
whoever looks for a comment, a comma or a colon, must not take what stands between the quotes for a
mark of the notation.  None of them reads escapes as the reader does.  What they have in common is
`Encloses`: a text between quotes in which every quote is spoken for, in double quotes by the
backslash in front of it and in single quotes by a second quote.

A text that is read shows this much of itself, since the digits of a number are neither quotes nor
backslashes.  The rest is an induction on what stands between the quotes, once for the search and
once for the scanners.
-/
import YamlDecode.Proofs.Bytes.Scan
import YamlDecode.Proofs.Text.Quoted

namespace YamlDecode.Text

/-! ### What stands between quotes -/

namespace Quoted

/-- Characters that are no single quotes, and single quotes in pairs. -/
inductive Doubled : List Char → Prop
  | nil : Doubled []
  | plain {c : Char} {cs : List Char} (quote : c ≠ '\'') (rest : Doubled cs) : Doubled (c :: cs)
  | pair {cs : List Char} (rest : Doubled cs) : Doubled ('\'' :: '\'' :: cs)

/-- The text stands between quotes, and the last one closes it in front of the rest. -/
inductive Encloses : List Char → List Char → Prop
  | double {body rest : List Char} (h : Body body) : Encloses ('"' :: (body ++ ['"'])) rest
  | single {body rest : List Char} (h : Doubled body) (hrest : rest.head? ≠ some '\'') :
      Encloses ('\'' :: (body ++ ['\''])) rest

theorem doubled_items {value : List Char} {items : List (List Char)}
    (h : List.Forall₂ SingleItem value items) : Doubled items.flatten := by
  induction h with
  | nil => exact .nil
  | cons hitem _ ih =>
      rw [List.flatten_cons]
      cases hitem with
      | plain quote => exact .plain quote ih
      | doubled => exact .pair ih

/-- A text that is read is one between quotes and what is left over. -/
theorem exists_encloses {text value rest : List Char} (h : read text = .ok (value, rest)) :
    ∃ quoted, text = quoted ++ rest ∧ Encloses quoted rest := by
  unfold read at h
  split at h
  · obtain ⟨items, hitems, rfl⟩ := readDouble_eq_ok.1 h
    refine ⟨_, ?_, .double (body_items hitems)⟩
    simp
  · obtain ⟨⟨items, hitems, rfl⟩, hrest⟩ := readSingle_eq_ok.1 h
    refine ⟨_, ?_, .single (doubled_items hitems) hrest⟩
    simp
  · cases h

/-- The closing quote is no blank, so trimming leaves all of the text. -/
theorem Encloses.prefix_trimEnd {quoted rest : List Char} (h : Encloses quoted rest)
    (more : List Char) : quoted <+: trimEnd (quoted ++ more) := by
  have hlast : ∃ front c, quoted = front ++ [c] ∧ isBlank c = false := by
    cases h with
    | @double body => exact ⟨'"' :: body, '"', rfl, rfl⟩
    | @single body => exact ⟨'\'' :: body, '\'', rfl, rfl⟩
  obtain ⟨front, c, rfl, hc⟩ := hlast
  rw [List.append_assoc, List.singleton_append, trimEnd_append_of_last hc]
  exact ⟨trimEnd more, by simp⟩

end Quoted

open Quoted

/-! ### The search for the closing quote -/

theorem closeSingle_doubled {b rest : List Char} (hb : Doubled b) (hrest : rest.head? ≠ some '\'') :
    ∀ seen, closeSingle seen (b ++ '\'' :: rest) = some (seen.reverse ++ b ++ ['\''], rest) := by
  induction hb with
  | nil =>
      intro seen
      have hclosed : ∀ more, '\'' = '\'' → rest = '\'' :: more → False := by
        rintro more - rfl
        exact hrest rfl
      rw [List.nil_append, closeSingle, if_pos rfl, List.reverse_cons, List.append_nil]
      exact hclosed
  | plain hquote _ ih =>
      intro seen
      rw [List.cons_append, closeSingle, if_neg hquote, ih]
      · simp
      · exact fun _ h _ => hquote h
  | pair _ ih =>
      intro seen
      rw [List.cons_append, List.cons_append, closeSingle, ih]
      simp

theorem Quoted.Encloses.closingQuote_eq {quoted rest : List Char} (h : Encloses quoted rest) :
    closingQuote (quoted ++ rest) = some (quoted, rest) := by
  cases h with
  | double hbody =>
      rw [List.cons_append, List.append_assoc, List.singleton_append, closingQuote]
      exact closeDouble_body hbody rest ['"']
  | single hbody hrest =>
      rw [List.cons_append, List.append_assoc, List.singleton_append, closingQuote]
      exact closeSingle_doubled hbody hrest ['\'']

/-- The colon of an entry is looked for behind the text. -/
theorem Quoted.Encloses.prefix_blockColon {quoted rest before after : List Char}
    (h : Encloses quoted rest) (hcolon : blockColon (quoted ++ rest) = some (before, after)) :
    quoted <+: before := by
  have hopens : ∃ c cs, quoted ++ rest = c :: cs ∧ (c = '"' || c = '\'') = true := by
    cases h with
    | double => exact ⟨'"', _, rfl, rfl⟩
    | single => exact ⟨'\'', _, rfl, rfl⟩
  obtain ⟨c, cs, htext, hc⟩ := hopens
  have hclose := h.closingQuote_eq
  rw [htext] at hclose hcolon
  rw [blockColon, if_pos hc, hclose] at hcolon
  obtain ⟨⟨front, behind⟩, -, hpair⟩ := Option.map_eq_some_iff.1 hcolon
  cases hpair
  exact List.prefix_append _ _

/-! ### Scanners -/

namespace Scanner

variable {τ : Type} {s : Scanner (Quoting × τ)}

/-- No quote is a mark of the scanner. -/
def IgnoresQuotes (s : Scanner (Quoting × τ)) : Prop :=
  ∀ x, s.stop (.plain, x) '"' = false ∧ s.stop (.plain, x) '\'' = false

section

variable (hs : s.Watches) (hquotes : s.IgnoresQuotes)
include hs hquotes

theorem Watches.run_doubled {b : List Char} (hb : Doubled b) :
    ∀ x, ∃ x', s.run (.single, x) b = some (.single, x') := by
  induction hb with
  | nil => exact fun x => ⟨x, rfl⟩
  | @plain c cs hquote _ ih =>
      intro x
      have hq : Quoting.single.step c = .single := if_neg hquote
      rw [hs.run_quoted (by decide), hq]
      exact ih _
  | @pair cs _ ih =>
      -- The first quote of the pair seems to close the text, and the second opens it again.
      intro x
      rw [hs.run_quoted (by decide)]
      show ∃ x', s.run (.plain, _) ('\'' :: cs) = some (.single, x')
      rw [hs.run_step (hquotes _).2]
      exact ih _

theorem Watches.run_enclosed {quoted rest : List Char} (h : Encloses quoted rest) (x : τ) :
    ∃ x', s.run (.plain, x) quoted = some (.plain, x') := by
  cases h with
  | double hbody =>
      rw [hs.run_step (hquotes x).1]
      show ∃ x', s.run (.double, _) _ = some (.plain, x')
      obtain ⟨y, hrun, -⟩ := hs.run_body hbody (s.step (.plain, x) '"').2
      rw [run_append hrun, hs.run_quoted (by decide)]
      exact ⟨_, rfl⟩
  | single hbody _ =>
      rw [hs.run_step (hquotes x).2]
      show ∃ x', s.run (.single, _) _ = some (.plain, x')
      obtain ⟨y, hrun⟩ := hs.run_doubled hquotes hbody (s.step (.plain, x) '\'').2
      rw [run_append hrun, hs.run_quoted (by decide)]
      exact ⟨_, rfl⟩

end

end Scanner

section

variable {quoted rest : List Char} (h : Encloses quoted rest)
include h

theorem Quoted.Encloses.prefix_stripComment : quoted <+: stripComment (quoted ++ rest) := by
  obtain ⟨afterBlank, hrun⟩ :=
    commentScanner_watches.run_enclosed (fun _ => ⟨rfl, rfl⟩) h true
  obtain ⟨more, hcut⟩ := Scanner.cut_append_of_run hrun rest
  rw [stripComment, hcut]
  exact h.prefix_trimEnd more

theorem Quoted.Encloses.prefix_flowColon {before after : List Char}
    (hcolon : flowColon (quoted ++ rest) = some (before, after)) : quoted <+: before := by
  obtain ⟨depths, hrun⟩ :=
    flowColonScanner_watches.run_enclosed (fun _ => ⟨rfl, rfl⟩) h (0, 0)
  obtain ⟨more, hcut⟩ := Scanner.cut_append_of_run hrun rest
  unfold flowColon at hcolon
  split at hcolon
  · cases hcolon
  · next hparts =>
    cases hcolon
    rw [hparts] at hcut
    exact ⟨more, hcut.symm⟩

theorem Quoted.Encloses.prefix_flowPieces :
    ∃ piece pieces, flowPieces (quoted ++ rest) = piece :: pieces ∧ piece.offset = 0 ∧
      quoted <+: piece.text := by
  obtain ⟨depth, hrun⟩ := commaScanner_watches.run_enclosed (fun _ => ⟨rfl, rfl⟩) h 0
  obtain ⟨more, behind, hpieces⟩ := Scanner.pieces_append_of_run hrun rest
  exact ⟨⟨0, quoted ++ more⟩, behind, hpieces, rfl, List.prefix_append _ _⟩

end

theorem width_le_of_prefix {a b : List Char} (h : a <+: b) : width a ≤ width b := by
  obtain ⟨more, rfl⟩ := h
  rw [width_append]
  exact Nat.le_add_right _ _

/--
**All scanners agree with the reader on where a quoted text ends.**

What is read takes the bytes of `quoted`.  The byte of its closing quote is the last of them; what
is left without a comment, and the first piece of a flow collection, have at least as many bytes;
and a colon, of a flow entry or of a block entry, is found behind all of them or not at all.
-/
theorem read_ends {text value rest : List Char} (h : Quoted.read text = .ok (value, rest)) :
    ∃ quoted, text = quoted ++ rest ∧ width quoted = width text - width rest ∧
      closingQuote text = some (quoted, rest) ∧
      (∃ last, Bytes.closingQuote text = .ok (some last) ∧ last + 1 = width quoted) ∧
      width quoted ≤ width (stripComment text) ∧
      (∀ before after, flowColon text = some (before, after) → width quoted ≤ width before) ∧
      (∃ piece pieces, flowPieces text = piece :: pieces ∧ piece.offset = 0 ∧
        width quoted ≤ width piece.text) ∧
      ∀ before after, blockColon text = some (before, after) → width quoted ≤ width before := by
  obtain ⟨quoted, rfl, hencloses⟩ := exists_encloses h
  have hclose := hencloses.closingQuote_eq
  refine ⟨quoted, rfl, by simp, hclose, ?_, ?_, ?_, ?_, ?_⟩
  · obtain ⟨close, hbytes, hlast⟩ := Bytes.closingQuote_eq (quoted ++ rest)
    rw [hclose] at hlast
    obtain ⟨last, rfl, hwidth⟩ := Option.map_eq_some_iff.1 hlast
    exact ⟨last, hbytes, hwidth⟩
  · exact width_le_of_prefix hencloses.prefix_stripComment
  · intro before after hcolon
    exact width_le_of_prefix (hencloses.prefix_flowColon hcolon)
  · obtain ⟨piece, pieces, hpieces, hoffset, hprefix⟩ := hencloses.prefix_flowPieces
    exact ⟨piece, pieces, hpieces, hoffset, width_le_of_prefix hprefix⟩
  · intro before after hcolon
    exact width_le_of_prefix (hencloses.prefix_blockColon hcolon)

/-- Every mark stands between the quotes, beside a quote that is written as a number, and again
behind them. -/
theorem read_ends_numbered :
    let text := "\"\\x22: , #'\" : a, b # c".toList
    let rest := " : a, b # c".toList
    Quoted.read text = .ok ("\": , #'".toList, rest) ∧
      closingQuote text = some ("\"\\x22: , #'\"".toList, rest) ∧
      Bytes.closingQuote text = .ok (some 11) ∧
      12 ≤ width (stripComment text) ∧
      (∀ before after, flowColon text = some (before, after) → 12 ≤ width before) ∧
      (∃ piece pieces, flowPieces text = piece :: pieces ∧ 12 ≤ width piece.text) ∧
      ∀ before after, blockColon text = some (before, after) → 12 ≤ width before := by
  intro text rest
  have hread : Quoted.read text = .ok ("\": , #'".toList, rest) := by decide +kernel
  have htaken : text = "\"\\x22: , #'\"".toList ++ rest := by decide +kernel
  obtain ⟨quoted, htext, hwidth, hclose, ⟨last, hbytes, hlast⟩, hcomment, hflow, hpieces, hblock⟩ :=
    read_ends hread
  obtain rfl : quoted = "\"\\x22: , #'\"".toList :=
    List.append_cancel_right (htext.symm.trans htaken)
  have htwelve : width "\"\\x22: , #'\"".toList = 12 := by decide +kernel
  rw [htwelve] at hlast hcomment hflow hpieces hblock
  obtain rfl : last = 11 := Nat.succ.inj hlast
  obtain ⟨piece, pieces, hpieces, -, hpiece⟩ := hpieces
  exact ⟨hread, hclose, hbytes, hcomment, hflow, ⟨piece, pieces, hpieces, hpiece⟩, hblock⟩

end YamlDecode.Text
