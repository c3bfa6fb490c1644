/-
Scanners that go by byte positions.

Each of these finds a mark as the byte at which it stands, and slices the text there to look at
what is in front of it or behind it.  The scanners of `Text/Scan.lean` take a text apart as they
go and need no positions.  Both find the same, and no slice on the way is undefined.

All proofs are one induction: what has been passed and what is left make up the text, and the
position is the width of what has been passed.
-/
import YamlDecode.Proofs.Bytes.Slice
import YamlDecode.Proofs.Text.Split
import YamlDecode.Text.Quoted

namespace YamlDecode.Bytes

open YamlDecode.Text

/-! ### Comments -/

/-- The loop of `stripComment`, at byte `at`. -/
def commentFrom (text : List Char) (q : Quoting) (i : Nat) : List Char → Checked (List Char)
  | [] => .ok (trimEnd text)
  | c :: cs =>
    if c == '#' && q == .plain then
      if i = 0 then .ok []
      else do
        let front ← sliceTo text i
        if isBlank (front.getLast?.getD ' ') then .ok (trimEnd front)
        else commentFrom text (q.step c) (i + c.utf8Size) cs
    else commentFrom text (q.step c) (i + c.utf8Size) cs

/-- The text without a comment at its end. -/
def stripComment (text : List Char) : Checked (List Char) := commentFrom text .plain 0 text

theorem commentFrom_eq {text : List Char} (cs : List Char) : ∀ {i : Nat} {seen : List Char}
    {q : Quoting}, Cut text i seen cs → commentFrom text q i cs =
      .ok (trimEnd (commentScanner.cutFrom (q, isBlank (seen.head?.getD ' ')) seen cs).1) := by
  induction cs with
  | nil =>
      intro i seen q h
      rw [commentFrom, Scanner.cutFrom, h.text_eq, List.append_nil]
  | cons c cs ih =>
      intro i seen q h
      have hnext := @ih _ _ (q.step c) h.next
      have hstop : commentScanner.stop (q, isBlank (seen.head?.getD ' ')) c =
          ((c == '#' && q == .plain) && isBlank (seen.head?.getD ' ')) := rfl
      rw [commentFrom, Scanner.cutFrom, hstop, h.sliceTo, ok_bind, List.getLast?_reverse]
      by_cases hmark : (c == '#' && q == .plain) = true
      · rw [if_pos hmark, hmark, Bool.true_and]
        by_cases hfirst : i = 0
        · -- A text starts as if a blank stood before it.
          subst hfirst
          obtain rfl := h.eq_nil
          rfl
        · rw [if_neg hfirst]
          split
          · rfl
          · exact hnext
      · rw [if_neg hmark, Bool.eq_false_iff.2 hmark]
        exact hnext

theorem stripComment_eq (text : List Char) : stripComment text = .ok (Text.stripComment text) :=
  commentFrom_eq text (.start text)

/-! ### Closing quotes -/

/-- The loop of `closingQuote` in double quotes, at byte `i`. -/
def closeDouble (escaped : Bool) (i : Nat) : List Char → Option Nat
  | [] => none
  | c :: cs =>
    if escaped then closeDouble false (i + c.utf8Size) cs
    else if c = '\\' then closeDouble true (i + c.utf8Size) cs
    else if c = '"' then some i
    else closeDouble false (i + c.utf8Size) cs

/-- The loop of `closingQuote` in single quotes; a quote that was looked at already is passed
over. -/
def closeSingle (text : List Char) (passed : Bool) (i : Nat) : List Char → Checked (Option Nat)
  | [] => .ok none
  | c :: cs =>
    if passed then closeSingle text false (i + c.utf8Size) cs
    else if c = '\'' then do
      let behind ← sliceFrom text (i + 1)
      if behind.head? = some '\'' then closeSingle text true (i + c.utf8Size) cs
      else .ok (some i)
    else closeSingle text false (i + c.utf8Size) cs

/-- The byte of the quote that closes the quoted text which a text starts with. -/
def closingQuote (text : List Char) : Checked (Option Nat) :=
  match text with
  | '"' :: cs => .ok (closeDouble false 1 cs)
  | '\'' :: cs => closeSingle text false 1 cs
  | _ => .ok none

theorem head?_ne {α : Type} {a : α} {xs : List α} (h : ∀ rest, xs ≠ a :: rest) :
    xs.head? ≠ some a :=
  fun hhead => (List.head?_eq_some_iff.1 hhead).elim h

theorem closeDouble_eq {text : List Char} (seen cs : List Char) : ∀ {i : Nat},
    Cut text i seen cs →
      (closeDouble false i cs).map (· + 1) = (Text.closeDouble seen cs).map fun r => width r.1 := by
  fun_induction Text.closeDouble seen cs with
  | case1 => exact fun h => rfl
  | case2 seen c cs ih =>
      intro i h
      rw [closeDouble, if_neg (by decide), if_pos rfl, closeDouble, if_pos rfl]
      exact ih h.next.next
  | case3 seen cs =>
      intro i h
      rw [closeDouble, if_neg (by decide), if_neg (by decide), if_pos rfl, h.byte_eq,
        Option.map_some, Option.map_some, List.reverse_cons, width_append]
      rfl
  | case4 seen c cs hescape hc ih =>
      intro i h
      rw [closeDouble, if_neg (by decide), if_neg hc]
      split
      · next hback =>
        cases cs with
        | nil => rfl
        | cons d cs => exact absurd rfl (hescape d cs hback)
      · exact ih h.next

theorem closeSingle_eq {text : List Char} (seen cs : List Char) : ∀ {i : Nat},
    Cut text i seen cs → ∃ close, closeSingle text false i cs = .ok close ∧
      close.map (· + 1) = (Text.closeSingle seen cs).map fun r => width r.1 := by
  fun_induction Text.closeSingle seen cs with
  | case1 => exact fun h => ⟨none, rfl, rfl⟩
  | case2 seen cs ih =>
      intro i h
      rw [closeSingle, if_neg (by decide), if_pos rfl, h.sliceBehind rfl, ok_bind,
        List.head?_cons, if_pos rfl, closeSingle, if_pos rfl]
      exact ih h.next.next
  | case3 seen cs hescape =>
      intro i h
      rw [closeSingle, if_neg (by decide), if_pos rfl, h.sliceBehind rfl, ok_bind,
        if_neg (head?_ne fun rest => hescape rest rfl)]
      refine ⟨some i, rfl, ?_⟩
      rw [h.byte_eq, Option.map_some, Option.map_some, List.reverse_cons, width_append]
      rfl
  | case4 seen c cs hescape hc ih =>
      intro i h
      rw [closeSingle, if_neg (by decide), if_neg hc]
      exact ih h.next

theorem closingQuote_eq (text : List Char) : ∃ close, closingQuote text = .ok close ∧
    close.map (· + 1) = (Text.closingQuote text).map fun r => width r.1 := by
  unfold closingQuote
  split
  · next cs =>
    have hcut : Cut ('"' :: cs) 1 ['"'] cs := ⟨rfl, rfl⟩
    exact ⟨_, rfl, closeDouble_eq _ _ hcut⟩
  · next cs =>
    have hcut : Cut ('\'' :: cs) 1 ['\''] cs := ⟨rfl, rfl⟩
    exact closeSingle_eq _ _ hcut
  · next hdouble hsingle =>
    refine ⟨none, rfl, ?_⟩
    rw [Text.closingQuote]
    · rfl
    · exact hdouble
    · exact hsingle

/-! ### Colons -/

/-- The loop of `blockColon`, at byte `i` and behind the character `prev`. -/
def blockColonFrom (text : List Char) (prev : Char) (i : Nat) :
    List Char → Checked (Option Nat)
  | [] => .ok none
  | c :: cs =>
    if c = ':' then do
      let behind ← sliceFrom text (i + 1)
      if behind.head?.all isBlank then .ok (some i)
      else blockColonFrom text c (i + c.utf8Size) cs
    else if c = '#' && isBlank prev then .ok none
    else blockColonFrom text c (i + c.utf8Size) cs

/-- The byte of the colon that makes a line the entry of a block mapping. -/
def blockColon (text : List Char) : Checked (Option Nat) :=
  match text with
  | [] => .ok none
  | c :: _ =>
    if c = '"' || c = '\'' then do
      match ← closingQuote text with
      | none => .ok none
      | some i => blockColonFrom text ' ' (i + 1) (← sliceFrom text (i + 1))
    else if c = '{' || c = '[' || c = '#' then .ok none
    else do blockColonFrom text ' ' 0 (← sliceFrom text 0)

theorem blockColonFrom_eq {text : List Char} (cs : List Char) : ∀ {prev : Char} {i : Nat}
    {before seen : List Char}, Cut text i (seen ++ before) cs →
      blockColonFrom text prev i cs = .ok ((Text.blockColonFrom (isBlank prev) seen cs).map
        fun r => width (before.reverse ++ r.1)) := by
  induction cs with
  | nil => exact fun h => rfl
  | cons c cs ih =>
      intro prev i before seen h
      have hatBlank : cs.head?.all isBlank = atBlank cs := by
        cases cs
        all_goals rfl
      have hnext := @ih c _ before (c :: seen) h.next
      rw [blockColonFrom, Text.blockColonFrom]
      by_cases hcolon : c = ':'
      · subst hcolon
        have hstop : (decide (':' = ':') && atBlank cs) = atBlank cs := rfl
        rw [if_pos rfl, h.sliceBehind rfl, ok_bind, hatBlank, hstop]
        cases atBlank cs with
        | true =>
            rw [if_pos rfl, if_pos rfl, h.byte_eq, List.reverse_append]
            rfl
        | false =>
            have hcomment : (decide (':' = '#') && isBlank prev) = false := rfl
            rw [if_neg Bool.false_ne_true, if_neg Bool.false_ne_true, hcomment]
            exact hnext
      · rw [if_neg hcolon, decide_eq_false hcolon, Bool.false_and, if_neg Bool.false_ne_true]
        split
        · rfl
        · exact hnext

theorem blockColon_eq (text : List Char) :
    blockColon text = .ok ((Text.blockColon text).map fun r => width r.1) := by
  cases text with
  | nil => rfl
  | cons c cs =>
      rw [blockColon, Text.blockColon]
      split
      · obtain ⟨close, hrun, hclose⟩ := closingQuote_eq (c :: cs)
        rw [hrun, ok_bind]
        cases hquote : Text.closingQuote (c :: cs) with
        | none =>
            rw [hquote] at hclose
            rw [Option.map_eq_none_iff.1 hclose]
            rfl
        | some r =>
            obtain ⟨quoted, rest⟩ := r
            rw [hquote] at hclose
            obtain ⟨i, rfl, hi⟩ := Option.map_eq_some_iff.1 hclose
            have hcut : Cut (c :: cs) (i + 1) quoted.reverse rest :=
              hi ▸ .of_append (closingQuote_eq_some hquote)
            have hcolon := @blockColonFrom_eq _ rest ' ' _ quoted.reverse [] hcut
            simp only [hcut.sliceFrom, ok_bind, hcolon, List.reverse_reverse, Option.map_map]
            rfl
      split
      · rfl
      · exact @blockColonFrom_eq _ (c :: cs) ' ' 0 [] [] (.start _)

/-- The byte of the first stop of a scanner. -/
def find {σ : Type} (s : Scanner σ) (st : σ) (i : Nat) : List Char → Option Nat
  | [] => none
  | c :: cs => if s.stop st c then some i else find s (s.step st c) (i + c.utf8Size) cs

/-- The byte of the colon of a flow entry. -/
def flowColon (text : List Char) : Option Nat := find flowColonScanner flowColonScanner.start 0 text

theorem find_eq {σ : Type} (s : Scanner σ) {text : List Char} (cs : List Char) :
    ∀ {st : σ} {i : Nat} {seen : List Char}, Cut text i seen cs →
      find s st i cs = match s.cutFrom st seen cs with
        | (_, []) => none
        | (before, _ :: _) => some (width before) := by
  induction cs with
  | nil => exact fun h => rfl
  | cons c cs ih =>
      intro st i seen h
      rw [find, Scanner.cutFrom]
      by_cases hstop : s.stop st c = true
      · rw [if_pos hstop, if_pos hstop, h.byte_eq]
      · rw [if_neg hstop, if_neg hstop]
        exact ih h.next

theorem flowColon_eq (text : List Char) :
    flowColon text = (Text.flowColon text).map fun r => width r.1 := by
  rw [flowColon, find_eq _ text (.start text), Text.flowColon]
  show (match flowColonScanner.cut text with
    | (_, []) => none
    | (before, _ :: _) => some (width before)) = _
  rcases flowColonScanner.cut text with ⟨before, - | ⟨c, after⟩⟩
  · rfl
  · rfl

/-! ### Pieces -/

/-- The loop of `flowPieces`, at byte `i` and with a piece that starts at byte `start`. -/
def piecesFrom (text : List Char) (st : Quoting × Int) (start i : Nat)
    (done : List Scanner.Piece) : List Char → Checked (List Scanner.Piece)
  | [] => do
    let part ← sliceFrom text start
    return (⟨start, part⟩ :: done).reverse
  | c :: cs =>
    if commaScanner.stop st c then do
      let part ← slice text start i
      let behind := i + c.utf8Size
      piecesFrom text commaScanner.start behind behind (⟨start, part⟩ :: done) cs
    else piecesFrom text (commaScanner.step st c) start (i + c.utf8Size) done cs

/-- The parts of a flow collection between its own commas. -/
def flowPieces (text : List Char) : Checked (List Scanner.Piece) :=
  piecesFrom text commaScanner.start 0 0 [] text

theorem piecesFrom_eq {text : List Char} (cs : List Char) : ∀ {st : Quoting × Int} {start i : Nat}
    {before seen : List Char} {done : List Scanner.Piece}, text = before ++ (seen.reverse ++ cs) →
      start = width before → i = start + width seen →
        piecesFrom text st start i done cs =
          .ok (commaScanner.piecesFrom st start seen done cs) := by
  induction cs with
  | nil =>
      intro st start i before seen done htext hstart hi
      rw [piecesFrom, htext, hstart, List.append_nil, sliceFrom_width]
      rfl
  | cons c cs ih =>
      intro st start i before seen done htext hstart hi
      rw [piecesFrom, Scanner.piecesFrom]
      split
      · have hslice := slice_width before seen.reverse (c :: cs)
        rw [width_reverse, ← htext, ← hstart, ← hi] at hslice
        rw [hslice, ok_bind, ← hi]
        refine @ih _ _ _ (before ++ (seen.reverse ++ [c])) [] _ ?_ ?_ rfl
        · rw [htext]
          simp
        · rw [hi, hstart]
          simp [width_reverse]
          omega
      · refine @ih _ _ _ before (c :: seen) _ ?_ hstart ?_
        · rw [htext]
          simp
        · rw [hi, width_cons]
          omega

theorem flowPieces_eq (text : List Char) : flowPieces text = .ok (Text.flowPieces text) :=
  @piecesFrom_eq _ text _ 0 0 [] [] [] rfl rfl rfl

/-! ### Quoted texts -/

/-- The loop of `quoted` in double quotes, at byte `i`. -/
def readDouble (text : List Char) (line : Nat) (skip i : Nat) (done : List Char) :
    List Char → Checked (List Char × List Char)
  | [] => refuse line (.quoted text .unterminated)
  | c :: cs =>
    match skip with
    | skip + 1 => readDouble text line skip (i + c.utf8Size) done cs
    | 0 =>
      if c = '"' then do
        let behind ← sliceFrom text (i + 1)
        return (done.reverse, behind)
      else if c = '\\' then
        match Quoted.escape cs with
        | .error fault => refuse line (.quoted text fault)
        | .ok (d, used) => readDouble text line used (i + c.utf8Size) (d :: done) cs
      else readDouble text line 0 (i + c.utf8Size) (c :: done) cs

/-- The loop of `quoted` in single quotes; a quote that was looked at already is passed over. -/
def readSingle (text : List Char) (line : Nat) (passed : Bool) (i : Nat) (done : List Char) :
    List Char → Checked (List Char × List Char)
  | [] => refuse line (.quoted text .unterminated)
  | c :: cs =>
    if passed then readSingle text line false (i + c.utf8Size) done cs
    else if c = '\'' then do
      let behind ← sliceFrom text (i + 1)
      if behind.head? = some '\'' then
        readSingle text line true (i + c.utf8Size) ('\'' :: done) cs
      else return (done.reverse, behind)
    else readSingle text line false (i + c.utf8Size) (c :: done) cs

/-- What a quoted text stands for, and what follows it. -/
def quoted (line : Nat) (text : List Char) : Checked (List Char × List Char) :=
  match text with
  | '"' :: cs => readDouble text line 0 1 [] cs
  | '\'' :: cs => readSingle text line false 1 [] cs
  | _ => refuse line (.quoted text .missingQuote)

/-- The fault of a quoted text, at a line. -/
def faultAt (line : Nat) (text : List Char) {α : Type} : Except Quoted.Fault α → Checked α
  | .error fault => refuse line (.quoted text fault)
  | .ok a => .ok a

theorem readDouble_eq {text : List Char} {line : Nat} (cs : List Char) : ∀ {skip i : Nat}
    {done seen : List Char}, Cut text i seen cs →
      readDouble text line skip i done cs = faultAt line text (Quoted.readDouble skip done cs) := by
  induction cs with
  | nil => exact fun h => rfl
  | cons c cs ih =>
      intro skip i done seen h
      cases skip with
      | succ skip => exact ih h.next
      | zero =>
          rw [readDouble, Quoted.readDouble]
          by_cases hquote : c = '"'
          · subst hquote
            rw [if_pos rfl, if_pos rfl, h.sliceBehind rfl]
            rfl
          · simp only [if_neg hquote]
            split
            · cases Quoted.escape cs with
              | error fault => rfl
              | ok r => exact ih h.next
            · exact ih h.next

theorem readSingle_eq {text : List Char} {line : Nat} (done cs : List Char) : ∀ {i : Nat}
    {seen : List Char}, Cut text i seen cs →
      readSingle text line false i done cs = faultAt line text (Quoted.readSingle done cs) := by
  fun_induction Quoted.readSingle done cs with
  | case1 => exact fun h => rfl
  | case2 done cs ih =>
      intro i seen h
      rw [readSingle, if_neg (by decide), if_pos rfl, h.sliceBehind rfl, ok_bind,
        List.head?_cons, if_pos rfl, readSingle, if_pos rfl]
      exact ih h.next.next
  | case3 done cs hescape =>
      intro i seen h
      rw [readSingle, if_neg (by decide), if_pos rfl, h.sliceBehind rfl, ok_bind,
        if_neg (head?_ne fun rest => hescape rest rfl)]
      rfl
  | case4 done c cs hescape hc ih =>
      intro i seen h
      rw [readSingle, if_neg (by decide), if_neg hc]
      exact ih h.next

theorem quoted_eq (line : Nat) (text : List Char) :
    quoted line text = faultAt line text (Quoted.read text) := by
  unfold quoted
  split
  · next cs =>
    have hcut : Cut ('"' :: cs) 1 ['"'] cs := ⟨rfl, rfl⟩
    exact readDouble_eq cs hcut
  · next cs =>
    have hcut : Cut ('\'' :: cs) 1 ['\''] cs := ⟨rfl, rfl⟩
    exact readSingle_eq [] cs hcut
  · next hdouble hsingle =>
    rw [Quoted.read]
    · rfl
    · exact hdouble
    · exact hsingle

end YamlDecode.Bytes
