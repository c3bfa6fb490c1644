/-
Block collections and documents, by byte positions.

This is how a source is read that is kept line by line: the reader has a cursor, moves it over
the lines, slices them, and masks the front of a line to read the rest of it as a line of its own.
Nothing guarantees by itself that an index is in bounds or that a slice is defined.

`Tracking` says that a level of readers keeps to the lines left which the cursor stands for, and
`readBlock_tracks` and its kin that one level more does.  By induction on how deep readers may go
all of them do, so a document is read as `parse` reads it, and a run never breaks off.
-/
import YamlDecode.Document
import YamlDecode.Proofs.Bytes.BlockScalar
import YamlDecode.Proofs.Bytes.Inline
import YamlDecode.Proofs.Document.Soundness

namespace YamlDecode.Bytes

open YamlDecode.Text YamlDecode.Document

/-- What was read, and the cursor behind it. -/
abbrev Run := Checked (Rose Label × Cursor)

structure Readers where
  block : Nat → Cursor → Run
  sequence : Nat → Cursor → Run
  inline : Nat → Nat → List Char → Checked (Rose Label)

/-- The value behind a key or a dash, with the cursor below its line. -/
def readValue (inner : Readers) (compact : Bool) (line indent column : Nat) (text : List Char)
    (c : Cursor) : Run := do
  if (← stripComment text).isEmpty then
    match ← c.peek with
    | (none, c) => return (leaf .null [] line column, c)
    | (some next, c) =>
      let level ← next.indent
      -- Sliced whether it is looked at or not, so no slice is left out.
      let behind ← next.text
      if indent < level then inner.block level c
      else if compact && level == indent && isItem behind then inner.sequence indent c
      else return (leaf .null [] line column, c)
  else
    match ← readHeader line text with
    | some header =>
      let (value, c) ← readScalar header indent c
      return (leaf .str value line column, c)
    | none =>
      let node ← inner.inline line column text
      return (node, c)

/-- The next entry of a mapping indented by `indent`. -/
def nextEntry (inner : Readers) (indent : Nat) (c : Cursor) :
    Checked (Option Item × Cursor) := do
  match ← c.peek with
  | (none, c) => return (none, c)
  | (some l, c) =>
    let level ← l.indent
    if level < indent then return (none, c)
    else if indent < level then refuse l.number (.deeperIndent .blockMapping indent)
    else
      let text ← l.text
      if isItem text then refuse l.number .mixed
      else
        match ← blockColon text with
        | none => refuse l.number .missingColon
        | some colon =>
          let key ← readKey l.number (indent + 1) (← sliceTo text colon)
          let value := trimStart (← sliceFrom text (colon + 1))
          let column := (← difference (width l.raw) (width value)) + 1
          let (node, c) ← readValue inner true l.number indent column value c.advance
          return (some ⟨l.number, [key, node]⟩, c)

/-- The mapping indented by `indent` that starts on the line of the cursor. -/
def readMapping (inner : Readers) (indent : Nat) (c : Cursor) : Run := do
  let first ← item c.lines c.idx
  let (nodes, c) ← readItems .blockMapping (nextEntry inner indent) maxItems [] c
  return (.node ⟨.map, "", first.number, indent + 1⟩ nodes, c)

/-- Does a text behind a dash start a collection of its own? -/
def startsBlock (text : List Char) : Checked Bool := do
  let content ← stripComment text
  let colon ← blockColon text
  return !content.isEmpty && (isItem text || colon.isSome)

/-- The next item of a sequence indented by `indent`. -/
def nextItem (inner : Readers) (indent : Nat) (c : Cursor) :
    Checked (Option Item × Cursor) := do
  match ← c.peek with
  | (none, c) => return (none, c)
  | (some l, c) =>
    let level ← l.indent
    if level < indent then return (none, c)
    else if indent < level then refuse l.number (.deeperIndent .blockSequence indent)
    else
      let text ← l.text
      if !isItem text then return (none, c)
      else
        let tail := trimStart (← sliceFrom text 1)
        let offset ← difference (width l.raw) (width tail)
        let nested ← startsBlock tail
        let (node, c) ←
          if nested then do inner.block offset (← c.mask offset)
          else readValue inner false l.number indent (offset + 1) tail c.advance
        return (some ⟨l.number, [node]⟩, c)

/-- The sequence indented by `indent` that starts on the line of the cursor. -/
def readSequence (inner : Readers) (indent : Nat) (c : Cursor) : Run := do
  let first ← item c.lines c.idx
  let (nodes, c) ← readItems .blockSequence (nextItem inner indent) maxItems [] c
  return (.node ⟨.seq, "", first.number, indent + 1⟩ nodes, c)

/-- The value where no line is left.  No reader is ever called there. -/
def absent (indent : Nat) (c : Cursor) : Rose Label :=
  leaf .null [] ((c.lines.getLast?.map (·.number)).getD 1) (indent + 1)

/-- What starts at the next line with content, which is to be indented by `indent`. -/
def readBlock (inner : Readers) (indent : Nat) (c : Cursor) : Run := do
  match ← c.peek with
  | (none, c) => return (absent indent c, c)
  | (some l, c) =>
    let level ← l.indent
    if level ≠ indent then refuse l.number (.unexpectedIndent indent level)
    else
      let text ← l.text
      if isItem text then readSequence inner indent c
      else
        let colon ← blockColon text
        if colon.isSome then readMapping inner indent c
        else
          let node ← inner.inline l.number (indent + 1) text
          return (node, c.advance)

/-- Refuses the next line with content as too deep. -/
def refuseDeeper (indent : Nat) (c : Cursor) : Run := do
  match ← c.peek with
  | (none, c) => return (absent indent c, c)
  | (some l, _) => refuse l.number .tooDeep

def noReaders : Readers where
  block := refuseDeeper
  sequence := refuseDeeper
  inline line column text := readInline 0 line column text

/-- Readers that may go `room` levels deep. -/
def readers : Nat → Readers
  | 0 =>
    { block := refuseDeeper
      sequence := readSequence noReaders
      inline := readInline 0 }
  | room + 1 =>
    { block := readBlock (readers room)
      sequence := readSequence (readers room)
      inline := readInline (room + 1) }

/-- Moves the cursor behind a mark of the start of a document, if that comes first. -/
def behindMark (c : Cursor) : Checked Cursor := do
  match ← c.peek with
  | (none, c) => return c
  | (some l, c) => return if trim l.raw == ['-', '-', '-'] then c.advance else c

/-- The outcome for a document whose root has been read. -/
def finish (root : Rose Label) (c : Cursor) : Checked (Rose Label) := do
  match ← c.peek with
  | (none, _) => return root
  | (some l, _) =>
    if trim l.raw == ['.', '.', '.'] then return root else refuse l.number .contentAfterEnd

def readRoot (c : Cursor) : Checked (Rose Label) := do
  match ← (← behindMark c).peek with
  | (none, _) => return leaf .null [] 1 1
  | (some l, c) =>
    let (root, c) ← (readers (maxDepth + 1)).block (← l.indent) c
    finish root c

/-- The cursor at the first line of a text. -/
def start (text : List Char) : Cursor :=
  ⟨(lines text).zipIdx.map fun (raw, i) => ⟨i + 1, raw, 0⟩, 0⟩

/-- The tree of nodes that a document stands for. -/
def parse (text : String) : Checked Tree := do
  let c := start text.toList
  if maxLines < c.lines.length then refuse (maxLines + 1) .tooManyLines
  else
    let root ← readRoot c
    return Tree.ofRose root

/-! ### Runs that keep to the lines left -/

section Outcome

variable {α β σ σ' : Type} {rel : σ' → σ → Prop}

/-- What is made of what was read. -/
theorem Tracks.bind {x : Checked (α × σ')} {y : Except ParseError (α × σ)} (h : Tracks rel x y)
    (f : α → β) :
    Tracks rel (x >>= fun r => pure (f r.1, r.2)) (y >>= fun r => pure (f r.1, r.2)) := by
  rcases y with e | ⟨a, s⟩
  · rw [show x = _ from h]
    rfl
  · obtain ⟨s', rfl, hrel⟩ := h
    exact ⟨s', rfl, hrel⟩

/-- An item is made of what was read. -/
theorem Tracks.next {x : Checked (α × σ')} {y : Except ParseError (α × σ)} (h : Tracks rel x y)
    (f : α → Item) (s : σ) :
    TracksNext rel s (x >>= fun r => pure (some (f r.1), r.2))
      (y >>= fun r => pure (some (f r.1, r.2))) := by
  rcases y with e | ⟨a, t⟩
  · rw [show x = _ from h]
    rfl
  · obtain ⟨t', rfl, hrel⟩ := h
    exact ⟨t', rfl, hrel⟩

theorem Tracks.of_safe {s' : σ'} {s : σ} (h : rel s' s) (y : Except ParseError α) :
    Tracks rel (safe y >>= fun a => pure (a, s')) (y.map fun a => (a, s)) := by
  rcases y with e | a
  · rfl
  · exact ⟨s', rfl, h⟩

end Outcome

theorem startsBlock_eq (text : List Char) :
    startsBlock text = .ok (Document.startsBlock text) := by
  simp only [startsBlock, stripComment_eq, blockColon_eq, ok_bind, Option.isSome_map]
  rfl

/-- The readers of one level keep to the lines left, where there is something to read. -/
structure Tracking (inner : Readers) (plain : Document.Readers) : Prop where
  block : ∀ {indent : Nat} {c : Cursor} {ls rest : List Line} {l : Line}, c.At ls →
    skipIgnorable ls = l :: rest →
      Tracks Cursor.At (inner.block indent c) (plain.block indent ls)
  sequence : ∀ {indent : Nat} {c : Cursor} {rest : List Line} {l : Line}, c.On l rest →
    Tracks Cursor.At (inner.sequence indent c) (plain.sequence indent (l :: rest))
  inline : ∀ (line column : Nat) (text : List Char),
    inner.inline line column text = safe (plain.inline line column text)

section Levels

variable {inner : Readers} {plain : Document.Readers} (hinner : Tracking inner plain)

include hinner

theorem readValue_tracks {compact : Bool} {line indent column : Nat} {text : List Char}
    {c : Cursor} {ls : List Line} (hleft : c.Left ls) (hls : ∀ l ∈ ls, l.offset = 0) :
    Tracks Cursor.At (readValue inner compact line indent column text c)
      (Document.readValue plain compact line indent column text ls) := by
  have hat : c.At ls := hleft.at hls
  rw [readValue, Document.readValue, stripComment_eq, ok_bind]
  by_cases hempty : (Text.stripComment text).isEmpty = true
  · rw [if_pos hempty, if_pos hempty]
    cases hnext : skipIgnorable ls with
    | nil =>
        obtain ⟨c', hpeek, hat'⟩ := hat.peek_nil hnext
        rw [hpeek]
        exact ⟨c', rfl, hat'⟩
    | cons n rest =>
        obtain ⟨c', r, hpeek, his, hon, hat'⟩ := hat.peek_cons hnext
        simp only [hpeek, ok_bind, his.indent, his.text]
        split
        · exact hinner.block hon.at_cons (skipIgnorable_next hnext)
        split
        · exact hinner.sequence hon
        · exact ⟨c', rfl, hat'⟩
  · rw [if_neg hempty, if_neg hempty, readHeader_eq]
    cases Header.read text with
    | error fault => rfl
    | ok header =>
        cases header with
        | none =>
            show Tracks Cursor.At (inner.inline line column text >>= _) _
            rw [hinner.inline]
            exact .of_safe hat _
        | some header =>
            obtain ⟨c', hread, hleft'⟩ := @readScalar_eq header indent c ls hleft hls
            show Tracks Cursor.At (readScalar header indent c >>= _) _
            rw [hread]
            have hsuffix := takeBlock_suffix indent ls (header.indent.map (indent + ·)) []
            exact ⟨c', rfl, hleft'.at fun l hl => hls l (hsuffix.subset hl)⟩

theorem nextEntry_tracks {indent : Nat} {c : Cursor} {ls : List Line} (hat : c.At ls) :
    TracksNext Cursor.At ls (nextEntry inner indent c) (Document.nextEntry plain indent ls) := by
  rw [nextEntry, Document.nextEntry]
  cases hnext : skipIgnorable ls with
  | nil =>
      obtain ⟨c', hpeek, hat'⟩ := hat.peek_nil hnext
      rw [hpeek]
      exact ⟨c', rfl, hat'⟩
  | cons l rest =>
      obtain ⟨c', r, hpeek, his, hon, hat'⟩ := hat.peek_cons hnext
      simp only [hpeek, ok_bind, his.indent, his.text, his.number, blockColon_eq]
      split
      · exact ⟨c', rfl, hat'⟩
      split
      · rfl
      split
      · rfl
      cases hcolon : Text.blockColon l.text with
      | none => rfl
      | some parts =>
          obtain ⟨before, after⟩ := parts
          have hcut := Cut.of_append (blockColon_eq_some hcolon)
          have hoffset := his.passTo (Grammar.behindColon_suffix hcolon)
          have hvalue : Tracks Cursor.At
              (readValue inner true l.number indent (l.columnOf (trimStart after))
                (trimStart after) c'.advance)
              (Document.readValue plain true l.number indent (l.columnOf (trimStart after))
                (trimStart after) rest) :=
            readValue_tracks hinner hon.below hon.unmasked
          simp only [Option.map_some, hcut.sliceTo, hcut.sliceBehind rfl, ok_bind,
            List.reverse_reverse, readKey_eq, hoffset]
          cases Document.readKey l.number (indent + 1) before with
          | error e => rfl
          | ok key => exact hvalue.next (fun node => ⟨l.number, [key, node]⟩) ls

theorem nextItem_tracks {indent : Nat} {c : Cursor} {ls : List Line} (hat : c.At ls) :
    TracksNext Cursor.At ls (nextItem inner indent c) (Document.nextItem plain indent ls) := by
  rw [nextItem, Document.nextItem]
  cases hnext : skipIgnorable ls with
  | nil =>
      obtain ⟨c', hpeek, hat'⟩ := hat.peek_nil hnext
      rw [hpeek]
      exact ⟨c', rfl, hat'⟩
  | cons l rest =>
      obtain ⟨c', r, hpeek, his, hon, hat'⟩ := hat.peek_cons hnext
      simp only [hpeek, ok_bind, his.indent, his.text, his.number]
      split
      · exact ⟨c', rfl, hat'⟩
      split
      · rfl
      split
      · exact ⟨c', rfl, hat'⟩
      next hitem =>
      have hitem : isItem l.text = true := by simpa using hitem
      have hbehind : sliceFrom l.text 1 = .ok l.text.tail := by
        obtain ⟨tail, htext⟩ := List.head?_eq_some_iff.1 (head_of_isItem hitem)
        rw [htext]
        exact sliceFrom_width ['-'] tail
      have hoffset := his.passTo (Grammar.behindDash_suffix l)
      have hvalue : Tracks Cursor.At
          (readValue inner false l.number indent (l.columnOf (Grammar.behindDash l))
            (Grammar.behindDash l) c'.advance)
          (Document.readValue plain false l.number indent (l.columnOf (Grammar.behindDash l))
            (Grammar.behindDash l) rest) :=
        readValue_tracks hinner hon.below hon.unmasked
      have hdash : trimStart l.text.tail = Grammar.behindDash l := rfl
      simp only [hbehind, hdash, ok_bind, hoffset, startsBlock_eq]
      by_cases hstarts : Document.startsBlock (Grammar.behindDash l) = true
      · -- The line is masked up to the collection on it and stays the next one.
        have hcontent := Line.ignorable_passTo hitem (Grammar.behindDash_suffix_tail l)
        obtain ⟨c'', hmask, hon'⟩ := hon.mask (Grammar.behindDash_suffix l) hcontent
        have hblock := @hinner.block (l.passTo (Grammar.behindDash l)).offset _ _ _ _ hon'.at_cons
          (skipIgnorable_cons hcontent rest)
        rw [if_pos hstarts, if_pos hstarts, hmask]
        exact hblock.next (fun node => ⟨l.number, [node]⟩) ls
      · rw [if_neg hstarts, if_neg hstarts]
        exact hvalue.next (fun node => ⟨l.number, [node]⟩) ls

theorem readMapping_tracks {indent : Nat} {c : Cursor} {l : Line} {rest : List Line}
    (hon : c.On l rest) :
    Tracks Cursor.At (readMapping inner indent c)
      (Document.readMapping plain indent (l :: rest)) := by
  obtain ⟨r, hr, his, -⟩ := hon.left.cons
  have hitems : Tracks Cursor.At (readItems .blockMapping (nextEntry inner indent) maxItems [] c)
      (Document.readItems .blockMapping (Document.nextEntry plain indent) maxItems []
        (l :: rest)) :=
    readItems_tracks (nextEntry_tracks hinner) hon.at_cons
  rw [readMapping, item_eq hr, ok_bind, his.number]
  exact hitems.bind (Rose.node ⟨.map, "", l.number, indent + 1⟩)

theorem readSequence_tracks {indent : Nat} {c : Cursor} {l : Line} {rest : List Line}
    (hon : c.On l rest) :
    Tracks Cursor.At (readSequence inner indent c)
      (Document.readSequence plain indent (l :: rest)) := by
  obtain ⟨r, hr, his, -⟩ := hon.left.cons
  have hitems : Tracks Cursor.At (readItems .blockSequence (nextItem inner indent) maxItems [] c)
      (Document.readItems .blockSequence (Document.nextItem plain indent) maxItems []
        (l :: rest)) :=
    readItems_tracks (nextItem_tracks hinner) hon.at_cons
  rw [readSequence, item_eq hr, ok_bind, his.number]
  exact hitems.bind (Rose.node ⟨.seq, "", l.number, indent + 1⟩)

theorem readBlock_tracks {indent : Nat} {c : Cursor} {ls rest : List Line} {l : Line}
    (hat : c.At ls) (hnext : skipIgnorable ls = l :: rest) :
    Tracks Cursor.At (readBlock inner indent c) (Document.readBlock plain indent ls) := by
  obtain ⟨c', r, hpeek, his, hon, -⟩ := hat.peek_cons hnext
  rw [readBlock, Document.readBlock, hpeek, hnext]
  simp only [ok_bind, his.indent, his.text, his.number, blockColon_eq, Option.isSome_map]
  split
  · rfl
  split
  · exact readSequence_tracks hinner hon
  split
  · exact readMapping_tracks hinner hon
  · rw [hinner.inline]
    exact .of_safe (hon.below.at hon.unmasked) _

end Levels

theorem refuseDeeper_tracks {indent : Nat} {c : Cursor} {ls rest : List Line} {l : Line}
    (hat : c.At ls) (hnext : skipIgnorable ls = l :: rest) :
    Tracks Cursor.At (refuseDeeper indent c) (Document.refuseDeeper ls) := by
  obtain ⟨c', r, hpeek, his, -, -⟩ := hat.peek_cons hnext
  rw [refuseDeeper, Document.refuseDeeper, hpeek, hnext]
  simp only [ok_bind, his.number]
  rfl

theorem tracking_noReaders : Tracking noReaders Document.noReaders where
  block hat hnext := refuseDeeper_tracks hat hnext
  sequence hon := refuseDeeper_tracks hon.at_cons (skipIgnorable_cons hon.content _)
  inline _ column text := readInline_eq column text

theorem tracking_readers : ∀ room, Tracking (readers room) (Document.readers room)
  | 0 =>
    { block := fun hat hnext => refuseDeeper_tracks hat hnext
      sequence := fun hon => readSequence_tracks tracking_noReaders hon
      inline := fun _ column text => readInline_eq column text }
  | room + 1 =>
    { block := fun hat hnext => readBlock_tracks (tracking_readers room) hat hnext
      sequence := fun hon => readSequence_tracks (tracking_readers room) hon
      inline := fun _ column text => readInline_eq column text }

/-! ### Documents -/

theorem behindMark_eq {c : Cursor} {ls : List Line} (hat : c.At ls)
    (hls : ∀ l ∈ ls, l.offset = 0) :
    ∃ c', behindMark c = .ok c' ∧ c'.At (Document.behindMark ls) := by
  rw [behindMark, Document.behindMark]
  cases hnext : skipIgnorable ls with
  | nil =>
      obtain ⟨c', hpeek, hat'⟩ := hat.peek_nil hnext
      obtain ⟨ls', hleft, hskip⟩ := hat'.left
      rw [hpeek]
      exact ⟨c', rfl, ⟨ls', hleft, hskip.trans hnext⟩, nofun⟩
  | cons l rest =>
      obtain ⟨c', r, hpeek, his, hon, -⟩ := hat.peek_cons hnext
      have hl : l ∈ ls := (skipIgnorable_suffix hnext).subset List.mem_cons_self
      simp only [hpeek, ok_bind, his.raw_eq (hls l hl)]
      split
      · exact ⟨c'.advance, rfl, hon.below.at hon.unmasked⟩
      · exact ⟨c', rfl, hon.at_cons⟩

theorem finish_eq {root : Rose Label} {c : Cursor} {ls : List Line} (hat : c.At ls)
    (hls : ∀ l ∈ ls, l.offset = 0) :
    finish root c = safe ((Document.finish root ls).map (·.1)) := by
  rw [finish, Document.finish]
  cases hnext : skipIgnorable ls with
  | nil =>
      obtain ⟨c', hpeek, -⟩ := hat.peek_nil hnext
      rw [hpeek]
      rfl
  | cons l rest =>
      obtain ⟨c', r, hpeek, his, -, -⟩ := hat.peek_cons hnext
      have hl : l ∈ ls := (skipIgnorable_suffix hnext).subset List.mem_cons_self
      simp only [hpeek, ok_bind, his.raw_eq (hls l hl), his.number]
      split
      · rfl
      · rfl

theorem readRoot_eq {c : Cursor} {ls : List Line} (hleft : c.Left ls)
    (hls : ∀ l ∈ ls, l.offset = 0) :
    readRoot c = safe ((Document.readRoot ls).map (·.1)) := by
  obtain ⟨c', hmark, hat⟩ := behindMark_eq (hleft.at hls) hls
  rw [readRoot, Document.readRoot_eq, hmark, ok_bind]
  cases hroot : rootLines ls with
  | nil =>
      obtain ⟨c'', hpeek, -⟩ := hat.peek_nil hroot
      rw [hpeek]
      rfl
  | cons l rest =>
      obtain ⟨c'', r, hpeek, his, hon, -⟩ := hat.peek_cons hroot
      have hread := @(tracking_readers (maxDepth + 1)).block l.indent _ _ _ _ hon.at_cons
        (skipIgnorable_next hroot)
      simp only [hpeek, ok_bind, his.indent]
      rcases hblock : (Document.readers (maxDepth + 1)).block l.indent (l :: rest) with
        e | ⟨root, after⟩
      all_goals rw [hblock] at hread
      · rw [show Readers.block _ _ _ = _ from hread]
        rfl
      · -- The marks are looked for on whole lines, and none below the root is masked any more.
        obtain ⟨last, hrun, hat'⟩ := hread
        have hbeyond := ((sound_readers (maxDepth + 1)).block hblock).beyond
        have hafter := hbeyond.below_next (skipIgnorable_next hroot)
        rw [hrun]
        exact finish_eq hat' fun n hn => hon.unmasked n (hafter.subset hn)

theorem start_left (text : List Char) : (start text).Left (linesOf text) := by
  rw [Cursor.Left, start, List.drop_zero, linesOf, List.forall₂_map_left_iff,
    List.forall₂_map_right_iff, List.forall₂_same]
  rintro ⟨raw, i⟩ -
  exact ⟨rfl, rfl, sliceFrom.eq_1 raw⟩

/-- **A document is read without breaking off**: every slice and every index on the way is in
bounds, and what comes of it is what `parse` says. -/
theorem parse_eq_safe (text : String) :
    parse text = safe (YamlDecode.parse text) ∧ parse text ≠ .error .broken := by
  have hlength : (start text.toList).lines.length = (linesOf text.toList).length := by
    simp [start, linesOf]
  have hparse : parse text = safe (YamlDecode.parse text) := by
    simp only [parse, YamlDecode.parse, Document.read, hlength,
      readRoot_eq (start_left text.toList) fun l => offset_of_mem]
    split
    · rfl
    · cases Document.readRoot (linesOf text.toList) with
      | error e => rfl
      | ok r => rfl
  exact ⟨hparse, hparse ▸ safe_ne_broken _⟩

end YamlDecode.Bytes
