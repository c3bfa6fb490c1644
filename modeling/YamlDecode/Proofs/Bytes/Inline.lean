/-
Values on one line, by byte positions.

Keys, entries and items are sliced out of their texts at the colons and commas that have been
found, and the columns at which they start are differences of lengths.  All that comes of it is
what `Document/Inline.lean` says.
-/
import YamlDecode.Proofs.Bytes.Scan
import YamlDecode.Proofs.Document.Inline

namespace YamlDecode.Bytes

open YamlDecode.Text YamlDecode.Document

/-! ### Items of collections -/

section Items

variable {α σ σ' : Type}

/-- Reads items by `next` while there are any.  What is left comes back also where there is none,
since a search for it may have gone on. -/
def readItems (c : Collection) (next : σ' → Checked (Option Item × σ')) :
    Nat → List (Rose Label) → σ' → Checked (List (Rose Label) × σ')
  | room, done, s =>
    match next s with
    | .error stop => .error stop
    | .ok (none, rest) => .ok (done.reverse, rest)
    | .ok (some item, rest) =>
      match room with
      | 0 => refuse item.line (.tooManyItems c)
      | room + 1 => readItems c next room (item.nodes.reverse ++ done) rest

/-- A run that goes by positions comes to the same as one that takes apart what it reads, and what
is left of both is related. -/
def Tracks (rel : σ' → σ → Prop) :
    Checked (α × σ') → Except ParseError (α × σ) → Prop
  | x, .error e => x = .error (.refused e)
  | x, .ok (a, s) => ∃ s', x = .ok (a, s') ∧ rel s' s

/-- The same for the next item of a collection. -/
def TracksNext (rel : σ' → σ → Prop) (s : σ) :
    Checked (Option Item × σ') → Except ParseError (Option (Item × σ)) → Prop
  | x, .error e => x = .error (.refused e)
  | x, .ok none => ∃ s', x = .ok (none, s') ∧ rel s' s
  | x, .ok (some (item, t)) => ∃ t', x = .ok (some item, t') ∧ rel t' t

theorem readItems_tracks {rel : σ' → σ → Prop} {c : Collection}
    {next' : σ' → Checked (Option Item × σ')}
    {next : σ → Except ParseError (Option (Item × σ))}
    (tracks : ∀ {s' s}, rel s' s → TracksNext rel s (next' s') (next s)) {room : Nat} :
    ∀ {done : List (Rose Label)} {s' : σ'} {s : σ}, rel s' s →
      Tracks rel (readItems c next' room done s') (Document.readItems c next room done s) := by
  induction room with
  | zero =>
      intro done s' s h
      have hnext := tracks h
      unfold readItems Document.readItems
      rcases hs : next s with e | - | ⟨item, t⟩ <;> rw [hs] at hnext
      · rw [hnext]
        rfl
      · obtain ⟨t', hnext', hrel⟩ := hnext
        rw [hnext']
        exact ⟨t', rfl, hrel⟩
      · obtain ⟨t', hnext', -⟩ := hnext
        rw [hnext']
        rfl
  | succ room ih =>
      intro done s' s h
      have hnext := tracks h
      unfold readItems Document.readItems
      rcases hs : next s with e | - | ⟨item, t⟩ <;> rw [hs] at hnext
      · rw [hnext]
        rfl
      · obtain ⟨t', hnext', hrel⟩ := hnext
        rw [hnext']
        exact ⟨t', rfl, hrel⟩
      · obtain ⟨t', hnext', hrel⟩ := hnext
        rw [hnext']
        exact ih hrel

end Items

/-! ### Keys -/

def readKey (line column : Nat) (text : List Char) : Checked (Rose Label) :=
  let key := trim text
  if key.isEmpty then refuse line .emptyKey
  else if Quoted.opens key then do
    let (value, rest) ← quoted line key
    if allBlank rest then return leaf .str value line column
    else refuse line (.contentAfterKey (trim rest))
  else return leaf (Tag.ofPlain key) key line column

theorem readKey_eq (line column : Nat) (text : List Char) :
    readKey line column text = safe (Document.readKey line column text) := by
  unfold readKey Document.readKey
  simp only [quoted_eq]
  split
  · rfl
  split
  · cases Quoted.read (trim text) with
    | error fault => rfl
    | ok r =>
        show (if allBlank r.2 = true then _ else _) = safe (if allBlank r.2 = true then _ else _)
        split
        · rfl
        · rfl
  · rfl

/-! ### Flow collections -/

/-- The number of bytes that the blanks take in front of a text. -/
def blanksBefore (text : List Char) : Checked Nat :=
  difference (width text) (width (trimStart text))

theorem blanksBefore_eq (text : List Char) : blanksBefore text = .ok (blankWidth text) := by
  have hwidth := blankWidth_add_width_trimStart text
  rw [blanksBefore, difference_eq (by omega)]
  congr 1
  omega

section Collection

variable (value : Nat → List Char → Checked (Rose Label)) (line column : Nat)

def flowEntry (p : Scanner.Piece) : Checked Item := do
  let text := trim p.text
  let start := column + 1 + p.offset + (← blanksBefore p.text)
  match flowColon text with
  | none => refuse line (.missingFlowColon text)
  | some colon =>
    let key ← readKey line start (← sliceTo text colon)
    let after ← sliceFrom text (colon + 1)
    let node ← value (start + colon + 1 + (← blanksBefore after)) after
    return ⟨line, [key, node]⟩

def flowItem (p : Scanner.Piece) : Checked Item := do
  let node ← value (column + 1 + p.offset + (← blanksBefore p.text)) (trim p.text)
  return ⟨line, [node]⟩

/-- The next item of a flow collection. -/
def nextFlowItem (item : Scanner.Piece → Checked Item) (ps : List Scanner.Piece) :
    Checked (Option Item × List Scanner.Piece) :=
  match nextPiece ps with
  | none => .ok (none, ps)
  | some (p, rest) => (item p).map fun i => (some i, rest)

def flowItems (c : Collection) (item : Scanner.Piece → Checked Item) (inner : List Char) :
    Checked (List (Rose Label)) := do
  let pieces ← flowPieces inner
  (readItems c (nextFlowItem item) maxItems [] pieces).map (·.1)

def readUnquoted (text : List Char) : Checked (Rose Label) :=
  match text with
  | '{' :: tail =>
    match beforeLast '}' tail with
    | none => refuse line (.missingBraces text)
    | some inner => do
      let nodes ← flowItems .flowMapping (flowEntry value line column) inner
      return .node ⟨.map, "", line, column⟩ nodes
  | '[' :: tail =>
    match beforeLast ']' tail with
    | none => refuse line (.missingBrackets text)
    | some inner => do
      let nodes ← flowItems .flowSequence (flowItem value line column) inner
      return .node ⟨.seq, "", line, column⟩ nodes
  | _ => return leaf (Tag.ofPlain text) text line column

end Collection

/-- The value that a text stands for; `room` is how many levels deep it may go. -/
def readInline (room : Nat) (line column : Nat) (text : List Char) : Checked (Rose Label) :=
  match room with
  | 0 => refuse line .tooDeep
  | room + 1 =>
    if maxInlineWidth < width text then refuse line .tooLong
    else
      let content := trim text
      if Quoted.opens content then do
        let (value, rest) ← quoted line content
        if (← stripComment (trim rest)).isEmpty then return leaf .str value line column
        else refuse line (.contentAfterScalar (trim rest))
      else do readUnquoted (readInline room line) line column (← stripComment content)

section Collection

variable {value : Nat → List Char → Except ParseError (Rose Label)}
  {value' : Nat → List Char → Checked (Rose Label)} {line column : Nat}

theorem flowEntry_eq (hvalue : ∀ column text, value' column text = safe (value column text))
    (p : Scanner.Piece) :
    flowEntry value' line column p = safe (Document.flowEntry value line column p) := by
  unfold flowEntry Document.flowEntry
  simp only [blanksBefore_eq, ok_bind, flowColon_eq]
  cases hcolon : Text.flowColon (trim p.text) with
  | none => rfl
  | some r =>
      obtain ⟨before, after⟩ := r
      have hcut := Cut.of_append (flowColon_eq_some hcolon)
      simp only [Option.map_some, hcut.sliceTo, hcut.sliceBehind rfl, ok_bind,
        List.reverse_reverse, readKey_eq]
      refine safe_bind fun key => ?_
      rw [hvalue]
      exact safe_bind fun node => rfl

theorem flowItem_eq (hvalue : ∀ column text, value' column text = safe (value column text))
    (p : Scanner.Piece) :
    flowItem value' line column p = safe (Document.flowItem value line column p) := by
  unfold flowItem Document.flowItem
  rw [blanksBefore_eq, ok_bind, hvalue]
  exact safe_bind fun node => rfl

theorem nextFlowItem_tracks {item : Scanner.Piece → Except ParseError Item}
    {item' : Scanner.Piece → Checked Item} (hitem : ∀ p, item' p = safe (item p))
    (ps : List Scanner.Piece) :
    TracksNext Eq ps (nextFlowItem item' ps) (Document.nextFlowItem item ps) := by
  unfold nextFlowItem Document.nextFlowItem
  cases nextPiece ps with
  | none => exact ⟨ps, rfl, rfl⟩
  | some r =>
      obtain ⟨p, rest⟩ := r
      simp only [hitem]
      cases item p with
      | error e => rfl
      | ok i => exact ⟨rest, rfl, rfl⟩

theorem flowItems_eq {c : Collection} {item : Scanner.Piece → Except ParseError Item}
    {item' : Scanner.Piece → Checked Item} (hitem : ∀ p, item' p = safe (item p))
    (inner : List Char) : flowItems c item' inner = safe (Document.flowItems c item inner) := by
  have hitems : Tracks Eq (readItems c (nextFlowItem item') maxItems [] (Text.flowPieces inner))
      (Document.readItems c (Document.nextFlowItem item) maxItems [] (Text.flowPieces inner)) := by
    refine readItems_tracks ?_ rfl
    rintro ps - rfl
    exact nextFlowItem_tracks hitem ps
  rw [flowItems, flowItems_eq_readItems, flowPieces_eq, ok_bind]
  rcases hread : Document.readItems c (Document.nextFlowItem item) maxItems []
    (Text.flowPieces inner) with e | ⟨nodes, rest⟩
  all_goals rw [hread] at hitems
  · rw [show readItems c _ _ _ _ = _ from hitems]
    rfl
  · obtain ⟨rest', hitems, -⟩ := hitems
    rw [hitems]
    rfl

theorem readUnquoted_eq (hvalue : ∀ column text, value' column text = safe (value column text))
    (text : List Char) :
    readUnquoted value' line column text = safe (Document.readUnquoted value line column text) := by
  unfold readUnquoted
  split
  · next tail =>
    rw [Document.readUnquoted]
    cases beforeLast '}' tail with
    | none => rfl
    | some inner =>
        simp only [flowItems_eq (flowEntry_eq hvalue)]
        exact safe_bind fun nodes => rfl
  · next tail =>
    rw [Document.readUnquoted]
    cases beforeLast ']' tail with
    | none => rfl
    | some inner =>
        simp only [flowItems_eq (flowItem_eq hvalue)]
        exact safe_bind fun nodes => rfl
  · next hbrace hbracket =>
    rw [Document.readUnquoted]
    · rfl
    · exact hbrace
    · exact hbracket

end Collection

/-- **Values on one line are read without breaking off.** -/
theorem readInline_eq {room line : Nat} : ∀ (column : Nat) (text : List Char),
    readInline room line column text = safe (Document.readInline room line column text) := by
  induction room with
  | zero => exact fun _ _ => rfl
  | succ room ih =>
      intro column text
      unfold readInline Document.readInline
      simp only [quoted_eq, stripComment_eq, ok_bind]
      split
      · rfl
      split
      · cases Quoted.read (trim text) with
        | error fault => rfl
        | ok r =>
            show (if (Text.stripComment (trim r.2)).isEmpty = true then _ else _) =
              safe (if (Text.stripComment (trim r.2)).isEmpty = true then _ else _)
            split
            · rfl
            · rfl
      · exact readUnquoted_eq ih _

end YamlDecode.Bytes
