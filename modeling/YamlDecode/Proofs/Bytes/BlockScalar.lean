/-
Block scalars, by byte positions.

The lines of a block scalar are sliced at an indentation which its header or the first of them
gives, so it is not the line's own.  A line of the text is indented by that much or more, and up
to its own indentation it holds only spaces.  That goes for lines of which nothing is masked, and
below the line of a header there are no others.
-/
import YamlDecode.Proofs.Bytes.Cursor
import YamlDecode.Proofs.Bytes.Scan
import YamlDecode.Document.BlockScalar

namespace YamlDecode.Bytes

open YamlDecode.Text YamlDecode.Document

/-! ### Headers -/

def readMarks (line : Nat) (text : List Char) (h : Header) : List Char → Checked Header
  | [] => .ok h
  | c :: cs =>
    if c = '+' then readMarks line text { h with chomping := .keep } cs
    else if c = '-' then readMarks line text { h with chomping := .strip } cs
    else if '1' ≤ c ∧ c ≤ '9' then do
      let digit ← difference c.toNat '0'.toNat
      readMarks line text { h with indent := some digit } cs
    else if isBlank c then .ok h
    else refuse line (.blockHeader text)

/-- The header that a value is, if it starts like one. -/
def readHeader (line : Nat) (text : List Char) : Checked (Option Header) := do
  match trim (← stripComment text) with
  | '|' :: marks => (readMarks line text ⟨false, .clip, none⟩ marks).map some
  | '>' :: marks => (readMarks line text ⟨true, .clip, none⟩ marks).map some
  | _ => return none

theorem readMarks_eq {line : Nat} {text : List Char} (marks : List Char) : ∀ {h : Header},
    readMarks line text h marks = safe (atLine line (Header.readMarks text h marks)) := by
  induction marks with
  | nil => exact rfl
  | cons c marks ih =>
      intro h
      unfold readMarks Header.readMarks
      by_cases hkeep : c = '+'
      · rw [if_pos hkeep, if_pos hkeep, ih]
      rw [if_neg hkeep, if_neg hkeep]
      by_cases hstrip : c = '-'
      · rw [if_pos hstrip, if_pos hstrip, ih]
      rw [if_neg hstrip, if_neg hstrip]
      by_cases hdigit : '1' ≤ c ∧ c ≤ '9'
      · have hle : '0'.toNat ≤ c.toNat := Nat.le_trans (by decide) hdigit.1
        rw [if_pos hdigit, if_pos hdigit, difference_eq hle, ok_bind, ih]
      rw [if_neg hdigit, if_neg hdigit]
      split
      · rfl
      · rfl

theorem readHeader_eq (line : Nat) (text : List Char) :
    readHeader line text = safe (atLine line (Header.read text)) := by
  have hmap : ∀ x : Except Fault Header,
      (safe (atLine line x)).map some = safe (atLine line (x.map some)) := by
    rintro (fault | header)
    · rfl
    · rfl
  unfold readHeader
  rw [stripComment_eq, ok_bind]
  split
  · next marks hmarks =>
    rw [readMarks_eq, hmap, Header.read, hmarks]
    rfl
  · next marks hmarks =>
    rw [readMarks_eq, hmap, Header.read, hmarks]
    rfl
  · next hliteral hfolded =>
    have hread : Header.read text = .ok none := by
      unfold Header.read
      split
      · next marks hmarks => exact (hliteral marks hmarks).elim
      · next marks hmarks => exact (hfolded marks hmarks).elim
      · rfl
    rw [hread]
    rfl

/-! ### Lines -/

/-- Takes the lines of a block scalar, backwards, and moves the cursor behind them. -/
def takeBlock (parent : Nat) (indent : Option Nat) (done : List (List Char)) (c : Cursor) :
    Checked (List (List Char) × Cursor) :=
  if c.idx < c.lines.length then do
    let r ← item c.lines c.idx
    let level ← r.indent
    if allBlank (← sliceFrom r.raw level) then takeBlock parent indent ([] :: done) c.advance
    else
      match indent with
      | none =>
        if level ≤ parent then return (done, c)
        else do
          let line ← sliceFrom r.raw level
          takeBlock parent (some level) (line :: done) c.advance
      | some n =>
        if level < n then return (done, c)
        else do
          let line ← sliceFrom r.raw n
          takeBlock parent (some n) (line :: done) c.advance
  else return (done, c)
termination_by c.lines.length - c.idx
decreasing_by
  all_goals
    show c.lines.length - (c.idx + 1) < c.lines.length - c.idx
    omega

theorem takeBlock_eq {parent : Nat} (ls : List Line) : ∀ {indent : Option Nat}
    {done : List (List Char)} {c : Cursor}, c.Left ls → (∀ l ∈ ls, l.offset = 0) →
      ∃ c', takeBlock parent indent done c =
          .ok ((Document.takeBlock parent indent done ls).1, c') ∧
        c'.Left (Document.takeBlock parent indent done ls).2 := by
  induction ls with
  | nil =>
      intro indent done c h _
      refine ⟨c, ?_, h⟩
      rw [takeBlock, if_neg (Nat.not_lt.2 h.nil)]
      rfl
  | cons l ls ih =>
      intro indent done c h hls
      obtain ⟨r, hr, his, hrest⟩ := h.cons
      have hlt : c.idx < c.lines.length := (List.getElem?_eq_some_iff.1 hr).1
      have hslice : ∀ {n : Nat}, n ≤ l.indent →
          sliceFrom r.raw n = .ok (l.rest.drop (n - l.offset)) :=
        fun hn => his.slice (by rw [hls l List.mem_cons_self]; exact Nat.zero_le _) hn
      have hmore := fun indent done =>
        @ih indent done c.advance hrest fun n hn => hls n (List.mem_cons_of_mem l hn)
      rw [takeBlock, if_pos hlt, item_eq hr, ok_bind, his.indent, ok_bind, his.sliceText, ok_bind]
      unfold Document.takeBlock
      by_cases hblank : allBlank l.text = true
      · rw [if_pos hblank, if_pos hblank]
        exact hmore _ _
      rw [if_neg hblank, if_neg hblank]
      cases indent with
      | none =>
          by_cases hend : l.indent ≤ parent
          · simp only [if_pos hend]
            exact ⟨c, rfl, h⟩
          · have htext := his.sliceText.symm.trans (hslice (Nat.le_refl _))
            simp only [if_neg hend, ok_bind, ← Except.ok.inj htext]
            exact hmore _ _
      | some n =>
          by_cases hend : l.indent < n
          · simp only [if_pos hend]
            exact ⟨c, rfl, h⟩
          · simp only [if_neg hend, hslice (Nat.not_lt.1 hend), ok_bind]
            exact hmore _ _

/-! ### Texts -/

/-- The text of a block scalar, from the lines of its body and the number of blank ones behind. -/
def render (h : Header) (body : List (List Char)) (trailing : Nat) : List Char :=
  let text := if h.folded then foldLines body else joinLines body
  match h.chomping with
  | .strip => text
  | .clip => if body.isEmpty then text else text ++ ['\n']
  | .keep => text ++ List.replicate (trailing + 1) '\n'

/-- The number of blank lines at the end. -/
def trailing (done : List (List Char)) : Nat := (done.takeWhile (·.isEmpty)).length

/-- The lines without those. -/
def body (done : List (List Char)) : Checked (List (List Char)) := do
  let content := done.reverse
  itemsTo content (← difference content.length (trailing done))

/-- The text of a block scalar, and the cursor behind it. -/
def readScalar (h : Header) (parent : Nat) (c : Cursor) : Checked (List Char × Cursor) := do
  let (done, c) ← takeBlock parent (h.indent.map (parent + ·)) [] c
  return (render h (← body done) (trailing done), c)

theorem body_eq (done : List (List Char)) :
    body done = .ok (done.dropWhile (·.isEmpty)).reverse := by
  have hsplit : done.takeWhile (·.isEmpty) ++ done.dropWhile (·.isEmpty) = done :=
    List.takeWhile_append_dropWhile
  have hlength : trailing done + (done.dropWhile (·.isEmpty)).length = done.length := by
    rw [trailing, ← List.length_append, hsplit]
  have hbody : done.reverse.take (done.dropWhile (·.isEmpty)).length =
      (done.dropWhile (·.isEmpty)).reverse := by
    have hreverse := congrArg List.reverse hsplit
    rw [List.reverse_append] at hreverse
    rw [← hreverse, ← List.length_reverse, List.take_left]
  have hdifference : done.length - trailing done = (done.dropWhile (·.isEmpty)).length := by omega
  simp only [body, List.length_reverse, difference_eq (by omega : trailing done ≤ done.length),
    hdifference, ok_bind]
  rw [itemsTo, if_pos (by rw [List.length_reverse]; omega), hbody]

theorem readScalar_eq {h : Header} {parent : Nat} {c : Cursor} {ls : List Line} (hleft : c.Left ls)
    (hls : ∀ l ∈ ls, l.offset = 0) :
    ∃ c', readScalar h parent c = .ok ((h.readBlock parent ls).1, c') ∧
      c'.Left (h.readBlock parent ls).2 := by
  obtain ⟨c', htake, hleft'⟩ :=
    @takeBlock_eq parent ls (h.indent.map (parent + ·)) [] c hleft hls
  refine ⟨c', ?_, hleft'⟩
  simp only [readScalar, htake, ok_bind, body_eq]
  rfl

end YamlDecode.Bytes
