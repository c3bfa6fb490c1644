/-
Finding the marks of the notation in a text that may hold quotes.

A comment sign, a colon and a comma mean something only outside quotes, so every
search for one of them watches the text with the same small state, `Quoting`.  A
`Scanner` adds to that state what its mark needs besides (the character before, the
brackets that are open) and says where it stops.

Two things are done with a scanner.  `cut` splits a text in front of the first stop,
and `pieces` cuts at every stop and drops the marks, starting afresh behind each.
Cutting loses nothing (`cut_append`), and what is left behind a cut starts with a stop
(`stop_of_cut`), which is all that later arguments need to know of the loop.
-/
import YamlDecode.Text.Blank

namespace YamlDecode.Text

/-- Where a reader stands with respect to quotes.  Two single quotes in a row close and
open again, so a doubled quote inside a single-quoted text needs no state of its own. -/
inductive Quoting where
  | plain
  | single
  | double
  /-- In double quotes, right behind a backslash. -/
  | escaped
  deriving DecidableEq, Repr

/-- The state behind one more character. -/
def Quoting.step : Quoting → Char → Quoting
  | .plain, c => if c = '\'' then .single else if c = '"' then .double else .plain
  | .single, c => if c = '\'' then .plain else .single
  | .double, c => if c = '\\' then .escaped else if c = '"' then .plain else .double
  | .escaped, _ => .double

/-- A state that follows a text character by character, and the places where it stops. -/
structure Scanner (σ : Type) where
  start : σ
  step : σ → Char → σ
  stop : σ → Char → Bool

namespace Scanner

variable {σ : Type} (s : Scanner σ)

/-- The loop of `cut`; `seen` is what has been passed, backwards. -/
def cutFrom (st : σ) (seen : List Char) : List Char → List Char × List Char
  | [] => (seen.reverse, [])
  | c :: cs => if s.stop st c then (seen.reverse, c :: cs) else cutFrom (s.step st c) (c :: seen) cs

/-- The text in front of the first stop, and the text from there on. -/
def cut (cs : List Char) : List Char × List Char := s.cutFrom s.start [] cs

/-- A part of a text, with the byte of the text at which it starts. -/
structure Piece where
  offset : Nat
  text : List Char
  deriving DecidableEq, Repr

/-- The loop of `pieces`: `offset` is where the current piece starts, `seen` is what has
been passed of it and `done` are the pieces before it, both backwards. -/
def piecesFrom (st : σ) (offset : Nat) (seen : List Char) (done : List Piece) :
    List Char → List Piece
  | [] => (⟨offset, seen.reverse⟩ :: done).reverse
  | c :: cs =>
    if s.stop st c then
      piecesFrom s.start (offset + width seen + c.utf8Size) [] (⟨offset, seen.reverse⟩ :: done) cs
    else piecesFrom (s.step st c) offset (c :: seen) done cs

/-- The parts of a text between the stops. -/
def pieces (cs : List Char) : List Piece := s.piecesFrom s.start 0 [] [] cs

/-! ### Cutting loses nothing -/

theorem cutFrom_seen (cs : List Char) :
    ∀ st seen, s.cutFrom st seen cs =
      (seen.reverse ++ (s.cutFrom st [] cs).1, (s.cutFrom st [] cs).2) := by
  induction cs with
  | nil => intro st seen; simp [cutFrom]
  | cons c cs ih =>
      intro st seen
      by_cases h : s.stop st c
      · simp [cutFrom, h]
      · simp only [cutFrom, h, if_false, Bool.false_eq_true]
        rw [ih _ (c :: seen), ih _ [c]]
        simp

theorem cutFrom_append (cs : List Char) :
    ∀ st, (s.cutFrom st [] cs).1 ++ (s.cutFrom st [] cs).2 = cs := by
  induction cs with
  | nil => intro st; rfl
  | cons c cs ih =>
      intro st
      by_cases h : s.stop st c
      · simp [cutFrom, h]
      · simp only [cutFrom, h, if_false, Bool.false_eq_true]
        rw [cutFrom_seen]
        simp [ih]

theorem cut_append (cs : List Char) : (s.cut cs).1 ++ (s.cut cs).2 = cs :=
  s.cutFrom_append cs s.start

/-- A character that does not stop the scan goes in front of what is cut off later. -/
theorem cutFrom_cons (st : σ) (c : Char) (cs : List Char) :
    s.cutFrom st [] (c :: cs) =
      if s.stop st c then ([], c :: cs)
      else (c :: (s.cutFrom (s.step st c) [] cs).1, (s.cutFrom (s.step st c) [] cs).2) := by
  by_cases h : s.stop st c
  · simp [cutFrom, h]
  · simp only [cutFrom, h, if_false, Bool.false_eq_true]
    rw [cutFrom_seen]
    simp

/-- What is left behind a cut starts with a stop. -/
theorem stop_of_cut (cs : List Char) :
    ∀ st before c after, s.cutFrom st [] cs = (before, c :: after) →
      s.stop (before.foldl s.step st) c = true := by
  induction cs with
  | nil => intro st before c after h; simp [cutFrom] at h
  | cons d cs ih =>
      intro st before c after h
      rw [cutFrom_cons] at h
      by_cases hs : s.stop st d
      · simp only [hs, if_true, Prod.mk.injEq, List.cons.injEq] at h
        obtain ⟨rfl, rfl, -⟩ := h
        exact hs
      · simp only [hs, if_false, Bool.false_eq_true, Prod.mk.injEq] at h
        obtain ⟨rfl, h⟩ := h
        exact ih (s.step st d) _ c after (Prod.ext rfl h)

end Scanner

/-! ### Comments -/

/-- Stops at a comment sign that stands outside quotes, at the start of the text or
behind a blank. -/
def commentScanner : Scanner (Quoting × Bool) where
  start := (.plain, true)
  step := fun (q, _) c => (q.step c, isBlank c)
  stop := fun (q, afterBlank) c => c == '#' && q == .plain && afterBlank

/-- The text without a comment at its end and without the blanks before that. -/
def stripComment (cs : List Char) : List Char := trimEnd (commentScanner.cut cs).1

/-! ### Marks inside flow collections

Depths fall below zero where more is closed than was opened.  A word of 32 bits would hold them:
what is searched here is part of a value on one line, and such a value is refused beforehand if it
is longer than 64 KiB (`Document.maxInlineWidth`). -/

/-- Stops at a colon outside quotes where as many braces have been closed as opened, and
as many brackets. -/
def flowColonScanner : Scanner (Quoting × Int × Int) where
  start := (.plain, 0, 0)
  step := fun (q, braces, brackets) c =>
    let after := q.step c
    if q != .plain then (after, braces, brackets)
    else if c == '{' then (after, braces + 1, brackets)
    else if c == '}' then (after, braces - 1, brackets)
    else if c == '[' then (after, braces, brackets + 1)
    else if c == ']' then (after, braces, brackets - 1)
    else (after, braces, brackets)
  stop := fun (q, braces, brackets) c => c == ':' && q == .plain && braces == 0 && brackets == 0

/-- The text before and behind the colon of a flow entry. -/
def flowColon (cs : List Char) : Option (List Char × List Char) :=
  match flowColonScanner.cut cs with
  | (_, []) => none
  | (before, _ :: after) => some (before, after)

/-- Stops at a comma outside quotes where as many brackets of either kind have been closed
as opened. -/
def commaScanner : Scanner (Quoting × Int) where
  start := (.plain, 0)
  step := fun (q, depth) c =>
    let after := q.step c
    if q != .plain then (after, depth)
    else if c == '{' || c == '[' then (after, depth + 1)
    else if c == '}' || c == ']' then (after, depth - 1)
    else (after, depth)
  stop := fun (q, depth) c => c == ',' && q == .plain && depth == 0

/-- The parts of a flow collection between its own commas. -/
def flowPieces (cs : List Char) : List Scanner.Piece := commaScanner.pieces cs

/-! ### The colon of a block entry -/

/-- Does the text start with a blank, or end here? -/
def atBlank : List Char → Bool
  | [] => true
  | c :: _ => isBlank c

/-- The loop of `blockColon`: finds the first colon before a blank unless a comment comes
first.  Quotes mean nothing here, since only a key that starts with one is quoted. -/
def blockColonFrom (afterBlank : Bool) (seen : List Char) :
    List Char → Option (List Char × List Char)
  | [] => none
  | c :: cs =>
    if c = ':' && atBlank cs then some (seen.reverse, cs)
    else if c = '#' && afterBlank then none
    else blockColonFrom (isBlank c) (c :: seen) cs

/-- The text up to the closing double quote, which it includes, and the text behind it;
the opening quote is in `seen` already. -/
def closeDouble (seen : List Char) : List Char → Option (List Char × List Char)
  | [] => none
  | '\\' :: c :: cs => closeDouble (c :: '\\' :: seen) cs
  | c :: cs => if c = '"' then some ((c :: seen).reverse, cs) else closeDouble (c :: seen) cs

/-- The text up to the closing single quote, which it includes, and the text behind it;
a doubled quote does not close. -/
def closeSingle (seen : List Char) : List Char → Option (List Char × List Char)
  | [] => none
  | '\'' :: '\'' :: cs => closeSingle ('\'' :: '\'' :: seen) cs
  | c :: cs => if c = '\'' then some ((c :: seen).reverse, cs) else closeSingle (c :: seen) cs

/-- The quoted text that a text starts with, quotes included, and what follows it. -/
def closingQuote : List Char → Option (List Char × List Char)
  | '"' :: cs => closeDouble ['"'] cs
  | '\'' :: cs => closeSingle ['\''] cs
  | _ => none

/-- The text before and behind the colon that makes a line the entry of a block mapping.
A line that starts with a flow collection or a comment has none, and a quoted key is
passed over as a whole. -/
def blockColon : List Char → Option (List Char × List Char)
  | [] => none
  | c :: cs =>
    if c = '"' || c = '\'' then
      match closingQuote (c :: cs) with
      | none => none
      | some (quoted, rest) =>
        (blockColonFrom true [] rest).map fun (before, after) => (quoted ++ before, after)
    else if c = '{' || c = '[' || c = '#' then none
    else blockColonFrom true [] (c :: cs)

end YamlDecode.Text
