/-
Quoted texts as they are written.

A character is written as an item that stands for it, so reading gives back what was written and
stops right behind it (`read_write`).  Every other reader that has to pass over a quoted text only
watches for backslashes and quotes, and to those a written text shows nothing but a `Body` between
two quotes: characters that are neither, and backslashes with one character behind each.  So the
facts about scanners need no look at the table of escapes; each is an induction on `Body`.
-/
import YamlDecode.Proofs.Text.Scan
import YamlDecode.Proofs.Text.Spelling

namespace YamlDecode.Text

namespace Quoted

/-! ### How a character is written -/

/-- A character is written with a named escape, with a numbered one, or as itself. -/
inductive Written (c : Char) : List Char → Prop
  | named {name : Char} (hname : namedEscape name = some c) : Written c ['\\', name]
  | short (hlt : c.toNat < 256) :
      Written c ['\\', 'x', hexDigit (c.toNat / 16), hexDigit (c.toNat % 16)]
  | long (hlt : c.toNat < 256) :
      Written c ['\\', 'u', '0', '0', hexDigit (c.toNat / 16), hexDigit (c.toNat % 16)]
  | plain (hquote : c ≠ '"') (hbackslash : c ≠ '\\') (hcontrol : isControl c = false) :
      Written c [c]

theorem Written.ite {c d name : Char} {w : List Char} (hname : namedEscape name = some d)
    (h : c ≠ d → Written c w) : Written c (if c = d then ['\\', name] else w) := by
  by_cases hc : c = d
  · subst hc
    rw [if_pos rfl]
    exact .named hname
  · rw [if_neg hc]
    exact h hc

theorem written_writeChar (c : Char) : Written c (writeChar c) := by
  unfold writeChar
  refine .ite rfl ?_
  intro hquote
  refine .ite rfl ?_
  intro hbackslash
  -- The seven control characters that have names.
  iterate 7 refine .ite rfl fun _ => ?_
  by_cases hlow : (c.toNat < 0x20 || c.toNat == 0x7F) = true
  · rw [if_pos hlow]
    simp only [Bool.or_eq_true, decide_eq_true_eq, beq_iff_eq] at hlow
    exact .short (by omega)
  rw [if_neg hlow]
  by_cases hcontrol : isControl c = true
  · rw [if_pos hcontrol]
    simp only [isControl, Bool.or_eq_true, Bool.and_eq_true, decide_eq_true_eq] at hcontrol
    exact .long (by omega)
  · rw [if_neg hcontrol]
    exact .plain hquote hbackslash (by simpa using hcontrol)

/-! ### Reading back -/

theorem hexDigit_hexDigit : ∀ n < 16, HexDigit (hexDigit n) n := by
  unfold HexDigit
  decide

/-- Leading zeros do not count. -/
theorem Hexadecimal.byte {zeros : List Char} (h : Hexadecimal zeros 0) {n : Nat} (hn : n < 256) :
    Hexadecimal (zeros ++ [hexDigit (n / 16), hexDigit (n % 16)]) n := by
  have hhigh := h.snoc (hexDigit_hexDigit (n / 16) (by omega))
  have hboth := hhigh.snoc (hexDigit_hexDigit (n % 16) (by omega))
  have hvalue : 16 * (16 * 0 + n / 16) + n % 16 = n := by omega
  rwa [hvalue, List.append_assoc] at hboth

theorem Written.item {c : Char} {w : List Char} (h : Written c w) : DoubleItem c w := by
  have hx : ('x', 2) ∈ numberEscapes := by decide
  have hu : ('u', 4) ∈ numberEscapes := by decide
  rcases h with hname | hlt | hlt | ⟨hquote, hbackslash, -⟩
  · exact .escape (.letter (namedEscape_eq_some.1 hname))
  · exact .escape (.number hx rfl (.byte .nil hlt))
  · have hzero : HexDigit '0' 0 := .inl rfl
    have hzeros : Hexadecimal ['0', '0'] 0 := .snoc (.snoc .nil hzero) hzero
    exact .escape (.number hu rfl (hzeros.byte hlt))
  · exact .plain hquote hbackslash

theorem items_write (cs : List Char) : List.Forall₂ DoubleItem cs (cs.map writeChar) := by
  induction cs with
  | nil => exact .nil
  | cons c cs ih => exact .cons (written_writeChar c).item ih

theorem write_append (cs rest : List Char) :
    write cs ++ rest = '"' :: (cs.flatMap writeChar ++ '"' :: rest) := by
  rw [write, List.cons_append, List.append_assoc, List.singleton_append]

/-- **What is written is read back, and nothing behind it.** -/
theorem read_write (cs rest : List Char) : read (write cs ++ rest) = .ok (cs, rest) := by
  rw [write_append, List.flatMap_def]
  exact readDouble_items (items_write cs) []

/-! ### What stands between the quotes -/

/-- Characters that are no quotes and no backslashes, and backslashes with one character behind
each. -/
inductive Body : List Char → Prop
  | nil : Body []
  | plain {c : Char} {cs : List Char} (quote : c ≠ '"') (backslash : c ≠ '\\')
      (rest : Body cs) : Body (c :: cs)
  | escaped (c : Char) {cs : List Char} (rest : Body cs) : Body ('\\' :: c :: cs)

theorem Body.append {plain cs : List Char} (h : ∀ c ∈ plain, c ≠ '"' ∧ c ≠ '\\') (rest : Body cs) :
    Body (plain ++ cs) := by
  induction plain with
  | nil => exact rest
  | cons c plain ih =>
      obtain ⟨hc, hplain⟩ := List.forall_mem_cons.1 h
      exact .plain hc.1 hc.2 (ih hplain)

theorem HexDigit.ne {c : Char} {value : Nat} (h : HexDigit c value) : c ≠ '"' ∧ c ≠ '\\' := by
  have hvalue := digitValue_eq_some.2 h
  have hquote : digitValue '"' = none := rfl
  have hbackslash : digitValue '\\' = none := rfl
  constructor
  · rintro rfl
    cases hquote.symm.trans hvalue
  · rintro rfl
    cases hbackslash.symm.trans hvalue

theorem Hexadecimal.ne {digits : List Char} {n : Nat} (h : Hexadecimal digits n) :
    ∀ c ∈ digits, c ≠ '"' ∧ c ≠ '\\' := by
  induction h with
  | nil => nofun
  | snoc front last ih => exact List.forall_mem_append.2 ⟨ih, List.forall_mem_singleton.2 last.ne⟩

theorem DoubleItem.body {c : Char} {item cs : List Char} (h : DoubleItem c item) (rest : Body cs) :
    Body (item ++ cs) := by
  cases h with
  | plain quote backslash => exact .plain quote backslash rest
  | escape h =>
      cases h with
      | letter h => exact .escaped _ rest
      | number h hwidth hdigits => exact .escaped _ (.append hdigits.ne rest)

theorem body_items {value : List Char} {items : List (List Char)}
    (h : List.Forall₂ DoubleItem value items) : Body items.flatten := by
  induction h with
  | nil => exact .nil
  | cons hitem _ ih => exact hitem.body ih

theorem body_write (cs : List Char) : Body (cs.flatMap writeChar) := by
  rw [List.flatMap_def]
  exact body_items (items_write cs)

theorem hexDigit_ne_newline : ∀ n < 16, '\n' ≠ hexDigit n := by
  decide

theorem Written.newline_not_mem {c : Char} {w : List Char} (h : Written c w) : '\n' ∉ w := by
  have hdigits : c.toNat < 256 →
      '\n' ≠ hexDigit (c.toNat / 16) ∧ '\n' ≠ hexDigit (c.toNat % 16) := fun hlt =>
    ⟨hexDigit_ne_newline _ (by omega), hexDigit_ne_newline _ (by omega)⟩
  rcases h with @⟨name, hname⟩ | hlt | hlt | ⟨-, -, hcontrol⟩
  · have hne : '\n' ≠ name := by
      rintro rfl
      cases hname
    simpa using hne
  · simpa using hdigits hlt
  · simpa using hdigits hlt
  · have hne : '\n' ≠ c := by
      rintro rfl
      exact absurd hcontrol (by decide)
    simpa using hne

/-- No line ends inside a written text. -/
theorem newline_not_mem_write (cs : List Char) : '\n' ∉ write cs := by
  intro h
  unfold write at h
  simp only [List.mem_cons, List.mem_append, List.mem_flatMap, List.not_mem_nil, or_false] at h
  rcases h with h | ⟨c, -, h⟩ | h
  · exact absurd h (by decide)
  · exact (written_writeChar c).newline_not_mem h
  · exact absurd h (by decide)

end Quoted

open Quoted

/-! ### Passing over a quoted text -/

namespace Scanner

variable {τ : Type} {s : Scanner (Quoting × τ)}

/-- The scanner keeps track of quotes and never stops inside them. -/
structure Watches (s : Scanner (Quoting × τ)) : Prop where
  quoting : ∀ q x c, (s.step (q, x) c).1 = q.step c
  quoted : ∀ q x c, q ≠ .plain → s.stop (q, x) c = false

/-- Inside quotes the scanner changes nothing but where it stands with respect to them. -/
def Rests (s : Scanner (Quoting × τ)) : Prop :=
  ∀ q x c, q ≠ .plain → (s.step (q, x) c).2 = x

/-- A character at which the scanner does not stop moves it on among the quotes. -/
theorem Watches.run_step (hs : s.Watches) {q : Quoting} {x : τ} {c : Char}
    (h : s.stop (q, x) c = false) (cs : List Char) :
    s.run (q, x) (c :: cs) = s.run (q.step c, (s.step (q, x) c).2) cs := by
  rw [run_cons h, ← hs.quoting q x c]

theorem Watches.run_quoted (hs : s.Watches) {q : Quoting} (hq : q ≠ .plain) (x : τ) (c : Char)
    (cs : List Char) :
    s.run (q, x) (c :: cs) = s.run (q.step c, (s.step (q, x) c).2) cs :=
  hs.run_step (hs.quoted q x c hq) cs

theorem Watches.run_body (hs : s.Watches) {b : List Char} (hb : Body b) :
    ∀ x, ∃ x', s.run (.double, x) b = some (.double, x') ∧ (s.Rests → x' = x) := by
  induction hb with
  | nil => exact fun x => ⟨x, rfl, fun _ => rfl⟩
  | @plain c cs hquote hbackslash _ ih =>
      intro x
      have hq : Quoting.double.step c = .double := by
        rw [Quoting.step, if_neg hbackslash, if_neg hquote]
      obtain ⟨x', hrun, hrests⟩ := ih (s.step (.double, x) c).2
      refine ⟨x', ?_, ?_⟩
      · rw [hs.run_quoted (by decide), hq]
        exact hrun
      · intro h
        rw [hrests h, h _ _ _ (by decide)]
  | @escaped c cs _ ih =>
      intro x
      obtain ⟨x', hrun, hrests⟩ := ih (s.step (.escaped, (s.step (.double, x) '\\').2) c).2
      refine ⟨x', ?_, ?_⟩
      · rw [hs.run_quoted (by decide)]
        show s.run (.escaped, _) (c :: cs) = _
        rw [hs.run_quoted (by decide)]
        exact hrun
      · intro h
        rw [hrests h, h _ _ _ (by decide), h _ _ _ (by decide)]

/-- A scanner passes over a written text as a whole. -/
theorem Watches.run_write (hs : s.Watches) (cs : List Char) {x y : τ}
    (hopen : s.stop (.plain, x) '"' = false) (hstep : s.step (.plain, x) '"' = (.double, y)) :
    ∃ y', s.run (.plain, x) (write cs) = some (s.step (.double, y') '"') ∧ (s.Rests → y' = y) := by
  obtain ⟨y', hrun, hrests⟩ := hs.run_body (body_write cs) y
  refine ⟨y', ?_, hrests⟩
  rw [write, run_cons hopen, hstep, run_append hrun, run_cons (hs.quoted _ _ _ (by decide)), run_nil]

end Scanner

theorem commentScanner_watches : commentScanner.Watches where
  quoting _ _ _ := rfl
  quoted q x c hq := by
    simp [commentScanner, hq]

theorem commaScanner_watches : commaScanner.Watches where
  quoting q x c := by
    simp only [commaScanner]
    repeat' split
    all_goals rfl
  quoted q x c hq := by
    simp [commaScanner, hq]

theorem commaScanner_rests : commaScanner.Rests := by
  intro q x c hq
  simp [commaScanner, hq]

theorem flowColonScanner_watches : flowColonScanner.Watches where
  quoting q x c := by
    simp only [flowColonScanner]
    repeat' split
    all_goals rfl
  quoted q x c hq := by
    simp [flowColonScanner, hq]

theorem flowColonScanner_rests : flowColonScanner.Rests := by
  intro q x c hq
  simp [flowColonScanner, hq]

/-- A written text holds no comment, and its end is no blank. -/
theorem run_comment_write (afterBlank : Bool) (cs : List Char) :
    commentScanner.run (.plain, afterBlank) (write cs) = some (.plain, false) := by
  obtain ⟨y, hrun, -⟩ := commentScanner_watches.run_write cs (x := afterBlank) rfl rfl
  rw [hrun]
  rfl

/-- A written text holds no comma between the items of a collection. -/
theorem run_comma_write (depth : Int) (cs : List Char) :
    commaScanner.run (.plain, depth) (write cs) = some (.plain, depth) := by
  obtain ⟨y, hrun, hrests⟩ := commaScanner_watches.run_write cs (x := depth) rfl rfl
  rw [hrun, hrests commaScanner_rests]
  rfl

/-- A written text holds no colon between a key and a value. -/
theorem run_flowColon_write (depth : Int × Int) (cs : List Char) :
    flowColonScanner.run (.plain, depth) (write cs) = some (.plain, depth) := by
  obtain ⟨y, hrun, hrests⟩ := flowColonScanner_watches.run_write cs (x := depth) rfl rfl
  rw [hrun, hrests flowColonScanner_rests]
  rfl

/-- The colon behind a written key of a flow entry is found, whatever the key holds. -/
theorem flowColon_write (cs rest : List Char) :
    flowColon (write cs ++ ':' :: rest) = some (write cs, rest) := by
  have hcut := Scanner.cut_of_stop (run_flowColon_write (0, 0) cs) (c := ':') rfl rest
  rw [flowColon, hcut]

/-! ### Quoted keys of block entries -/

theorem closeDouble_body {b : List Char} (hb : Body b) (rest : List Char) :
    ∀ seen, closeDouble seen (b ++ '"' :: rest) = some (seen.reverse ++ b ++ ['"'], rest) := by
  induction hb with
  | nil =>
      intro seen
      rw [List.nil_append, closeDouble, if_pos rfl]
      · simp
      · intro c cs h
        cases h
  | @plain c cs hquote hbackslash _ ih =>
      intro seen
      rw [List.cons_append, closeDouble, if_neg hquote, ih]
      · simp
      · rintro c' cs' rfl
        exact absurd rfl hbackslash
  | @escaped c cs _ ih =>
      intro seen
      rw [List.cons_append, List.cons_append, closeDouble, ih]
      simp

theorem closingQuote_write (cs rest : List Char) :
    closingQuote (write cs ++ rest) = some (write cs, rest) := by
  rw [write_append]
  exact closeDouble_body (body_write cs) rest ['"']

/-- A text that starts with a written one is searched for a colon behind that. -/
theorem blockColon_write_append (cs rest : List Char) :
    blockColon (write cs ++ rest) =
      (blockColonFrom true [] rest).map fun (before, after) => (write cs ++ before, after) := by
  have hclose := closingQuote_write cs rest
  rw [write_append] at hclose ⊢
  rw [blockColon, if_pos (by decide), hclose]

/-- The colon behind a written key is found, whatever the key holds. -/
theorem blockColon_write (cs : List Char) {rest : List Char} (h : atBlank rest = true) :
    blockColon (write cs ++ ':' :: rest) = some (write cs, rest) := by
  rw [blockColon_write_append, blockColonFrom, h]
  simp

/-- A written text with nothing behind it is no key. -/
theorem blockColon_write_end (cs : List Char) : blockColon (write cs) = none := by
  have h := blockColon_write_append cs []
  rwa [List.append_nil] at h

end YamlDecode.Text
