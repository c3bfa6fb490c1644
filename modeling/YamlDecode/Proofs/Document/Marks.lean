/-
Marks around a document.

A line `---` in front of a document is passed over, and from then on the two runs are in step,
one line apart.

A line `...` behind a document is met by every reader that looks for the next line, before the
one that knows it as a mark.  What stops them is its indentation: `Stopping` says that a reader
which succeeds on some lines succeeds on these lines and the mark, with the same outcome, and
leaves the mark with what it leaves.  That is so for sequences and for whatever is indented, by
induction on how deep readers may go.

It is not so for a mapping that is not indented.  The mark has the indentation of its entries
and is taken for one, without a colon.  The root of a document is where such a mapping stands,
so `readRoot_stop` has two outcomes.
-/
import Mathlib
import YamlDecode.Proofs.Document.Header
import YamlDecode.Proofs.Document.Indentation
import YamlDecode.Proofs.Document.Locality

namespace YamlDecode

namespace Document

open YamlDecode.Text

/-! ### The mark behind -/

/-- The line that ends a document. -/
def endMark (number : Nat) : Line := ⟨number, 0, ['.', '.', '.']⟩

section Stop

variable {number : Nat}

@[simp] theorem text_endMark : (endMark number).text = ['.', '.', '.'] := rfl

@[simp] theorem indent_endMark : (endMark number).indent = 0 := rfl

@[simp] theorem number_endMark : (endMark number).number = number := rfl

/-- Where no line has content, the mark is the next one that has. -/
theorem skipIgnorable_endMark {ls : List Line} (h : skipIgnorable ls = []) :
    skipIgnorable (ls ++ [endMark number]) = [endMark number] := by
  rw [skipIgnorable] at h ⊢
  rw [List.dropWhile_append, h]
  rfl

/-! #### Block scalars -/

theorem readMarks_indent {text cs : List Char} {h h' : Header}
    (hread : Header.readMarks text h cs = .ok h') (hpos : ∀ n, h.indent = some n → 0 < n) :
    ∀ n, h'.indent = some n → 0 < n := by
  rw [Header.readMarks_eq] at hread
  split at hread
  · obtain rfl := Except.ok.inj hread
    exact Header.withMarks_indent_pos hpos
  · cases hread

/-- A header that says how its text is indented says a positive number. -/
theorem Header.indent_pos {text : List Char} {header : Header}
    (h : Header.read text = .ok (some header)) : ∀ n, header.indent = some n → 0 < n := by
  have hnone : ∀ folded n, (⟨folded, .clip, none⟩ : Header).indent = some n → 0 < n := nofun
  unfold Header.read at h
  split at h
  · obtain ⟨header', hread, hsome⟩ := exists_of_map_eq_ok h
    obtain rfl := Option.some.inj hsome
    exact readMarks_indent hread (hnone _)
  · obtain ⟨header', hread, hsome⟩ := exists_of_map_eq_ok h
    obtain rfl := Option.some.inj hsome
    exact readMarks_indent hread (hnone _)
  · cases h

theorem takeBlock_stop (parent : Nat) : ∀ (ls : List Line) {indent : Option Nat}
    (done : List (List Char)), (∀ n, indent = some n → 0 < n) →
      takeBlock parent indent done (ls ++ [endMark number]) =
        ((takeBlock parent indent done ls).1,
          (takeBlock parent indent done ls).2 ++ [endMark number]) := by
  intro ls
  induction ls with
  | nil =>
      intro indent done hpos
      cases indent with
      | none => rfl
      | some n =>
          have hless : (endMark number).indent < n := hpos n rfl
          exact if_pos hless
  | cons l ls ih =>
      intro indent done hpos
      rw [List.cons_append]
      unfold takeBlock
      by_cases hblank : allBlank l.text = true
      · simp only [if_pos hblank]
        exact ih _ hpos
      simp only [if_neg hblank]
      cases indent with
      | none =>
          by_cases hless : l.indent ≤ parent
          · simp only [if_pos hless]
            rfl
          · simp only [if_neg hless]
            refine ih _ fun n hn => ?_
            have hn := Option.some.inj hn
            omega
      | some n =>
          by_cases hless : l.indent < n
          · simp only [if_pos hless]
            rfl
          · simp only [if_neg hless]
            exact ih _ hpos

/-! #### One level -/

/-- The readers of one level stop at the mark, where what they read is a sequence or indented. -/
structure Stopping (number : Nat) (inner : Readers) : Prop where
  block : ∀ {indent : Nat} {ls after : List Line} {node : Rose Label}, 0 < indent →
    inner.block indent ls = .ok (node, after) →
      inner.block indent (ls ++ [endMark number]) = .ok (node, after ++ [endMark number])
  sequence : ∀ {indent : Nat} {l : Line} {rest after : List Line} {node : Rose Label},
    inner.sequence indent (l :: rest) = .ok (node, after) →
      inner.sequence indent (l :: rest ++ [endMark number]) = .ok (node, after ++ [endMark number])

variable {inner : Readers} (hinner : Stopping number inner)

include hinner

theorem readValue_stop {compact : Bool} {line indent column : Nat} {text : List Char}
    {ls after : List Line} {node : Rose Label}
    (h : readValue inner compact line indent column text ls = .ok (node, after)) :
    readValue inner compact line indent column text (ls ++ [endMark number]) =
      .ok (node, after ++ [endMark number]) := by
  unfold readValue at h ⊢
  by_cases hempty : (stripComment text).isEmpty = true
  · rw [if_pos hempty] at h ⊢
    cases hnext : skipIgnorable ls with
    | nil =>
        rw [hnext] at h
        cases h
        -- The mark is not indented more than anything, and no item.
        simp [skipIgnorable_endMark hnext, isItem]
    | cons next rest =>
        rw [hnext] at h
        rw [skipIgnorable_append hnext]
        simp only at h ⊢
        by_cases hdeeper : indent < next.indent
        · rw [if_pos hdeeper] at h ⊢
          exact hinner.block (Nat.zero_lt_of_lt hdeeper) h
        rw [if_neg hdeeper] at h ⊢
        split at h
        · next hcompact =>
          rw [if_pos hcompact]
          exact hinner.sequence h
        · next hcompact =>
          rw [if_neg hcompact]
          cases h
          rfl
  · rw [if_neg hempty] at h ⊢
    cases hheader : Header.read text with
    | error fault =>
        rw [hheader] at h
        cases h
    | ok header =>
        rw [hheader] at h
        cases header with
        | none =>
            obtain ⟨node', hnode, hpair⟩ := exists_of_map_eq_ok h
            cases hpair
            simp only [hnode]
            rfl
        | some header =>
            have hpos : ∀ n, header.indent.map (indent + ·) = some n → 0 < n := by
              intro n hn
              obtain ⟨digit, hdigit, rfl⟩ := Option.map_eq_some_iff.1 hn
              have := Header.indent_pos hheader digit hdigit
              omega
            cases h
            simp only [Header.readBlock, takeBlock_stop indent ls [] hpos]

theorem nextEntry_stop {indent : Nat} {ls after : List Line} {item : Item}
    (h : nextEntry inner indent ls = .ok (some (item, after))) :
    nextEntry inner indent (ls ++ [endMark number]) =
      .ok (some (item, after ++ [endMark number])) := by
  unfold nextEntry at h ⊢
  cases hnext : skipIgnorable ls with
  | nil =>
      rw [hnext] at h
      cases h
  | cons l rest =>
      rw [hnext] at h
      rw [skipIgnorable_append hnext]
      simp only at h ⊢
      split at h
      · cases h
      next hless =>
      rw [if_neg hless]
      split at h
      · cases h
      next hmore =>
      rw [if_neg hmore]
      split at h
      · cases h
      next hitem =>
      rw [if_neg hitem]
      cases hcolon : blockColon l.text with
      | none =>
          rw [hcolon] at h
          cases h
      | some split =>
          rw [hcolon] at h
          obtain ⟨key, hkey, h⟩ := exists_of_bind_eq_ok h
          obtain ⟨⟨node, after'⟩, hvalue, h⟩ := exists_of_bind_eq_ok h
          cases h
          simp only [hkey, readValue_stop hinner hvalue]
          rfl

omit hinner in
/-- The mark ends a mapping that is indented. -/
theorem nextEntry_stop_none {indent : Nat} (hindent : 0 < indent) {ls : List Line}
    (h : nextEntry inner indent ls = .ok none) :
    nextEntry inner indent (ls ++ [endMark number]) = .ok none := by
  have hstop := nextEntry_eq_none h
  unfold nextEntry
  cases hnext : skipIgnorable ls with
  | nil =>
      rw [skipIgnorable_endMark hnext]
      exact if_pos hindent
  | cons l rest =>
      rw [skipIgnorable_append hnext]
      exact if_pos (hstop l rest hnext)

omit hinner in
/-- The mark is taken for an entry of a mapping that is not indented. -/
theorem nextEntry_endMark {ls : List Line} (h : nextEntry inner 0 ls = .ok none) :
    nextEntry inner 0 (ls ++ [endMark number]) = .error ⟨number, .missingColon⟩ := by
  have hnil : skipIgnorable ls = [] := by
    cases hnext : skipIgnorable ls with
    | nil => rfl
    | cons l rest => exact absurd (nextEntry_eq_none h l rest hnext) (Nat.not_lt_zero _)
  unfold nextEntry
  rw [skipIgnorable_endMark hnil]
  rfl

theorem nextItem_stop {indent : Nat} {ls after : List Line} {item : Item}
    (h : nextItem inner indent ls = .ok (some (item, after))) :
    nextItem inner indent (ls ++ [endMark number]) =
      .ok (some (item, after ++ [endMark number])) := by
  obtain ⟨l, rest, node, hnext, rfl, hitem, rfl, hvalue⟩ := nextItem_eq_some h
  unfold nextItem
  rw [skipIgnorable_append hnext]
  simp only [Nat.lt_irrefl, if_false, hitem, Bool.not_true, Bool.false_eq_true]
  have hdash : trimStart l.text.tail = Grammar.behindDash l := rfl
  rw [hdash]
  rcases hvalue with ⟨hstarts, hblock⟩ | ⟨hstarts, hvalue⟩
  · -- What starts behind the dash is indented at least as far as the dash takes up room.
    have hread := hinner.block
      (Line.offset_passTo_pos hitem (Grammar.behindDash_suffix_tail l)) hblock
    rw [List.cons_append] at hread
    simp only [hstarts, if_true, hread]
    rfl
  · simp only [hstarts, Bool.false_eq_true, if_false, readValue_stop hinner hvalue]
    rfl

omit hinner in
/-- The mark ends a sequence, as any line that is not indented and no item. -/
theorem nextItem_stop_none {indent : Nat} {ls : List Line}
    (h : nextItem inner indent ls = .ok none) :
    nextItem inner indent (ls ++ [endMark number]) = .ok none := by
  have hstop := nextItem_eq_none h
  unfold nextItem
  cases hnext : skipIgnorable ls with
  | nil =>
      rw [skipIgnorable_endMark hnext]
      by_cases hindent : 0 < indent
      · exact if_pos hindent
      · obtain rfl : indent = 0 := by omega
        rfl
  | cons l rest =>
      rw [skipIgnorable_append hnext]
      rcases hstop l rest hnext with hless | ⟨rfl, hitem⟩
      · exact if_pos hless
      · simp [hitem]

omit hinner in
/-- A loop whose steps do not see what is put behind goes on from where it ended before. -/
theorem readItems_append {c : Collection}
    {next : List Line → Except ParseError (Option (Item × List Line))} {below : List Line}
    (hstep : ∀ {ls item after}, next ls = .ok (some (item, after)) →
      next (ls ++ below) = .ok (some (item, after ++ below))) {room : Nat} :
    ∀ {done nodes : List (Rose Label)} {ls after : List Line},
      readItems c next room done ls = .ok (nodes, after) →
        next after = .ok none ∧ ∃ left, readItems c next room done (ls ++ below) =
          readItems c next left nodes.reverse (after ++ below) := by
  induction room with
  | zero =>
      intro done nodes ls after h
      unfold readItems at h
      split at h
      · cases h
      · next hstop =>
        cases h
        exact ⟨hstop, 0, by rw [List.reverse_reverse]⟩
      · cases h
  | succ room ih =>
      intro done nodes ls after h
      unfold readItems at h
      split at h
      · cases h
      · next hstop =>
        cases h
        exact ⟨hstop, room + 1, by rw [List.reverse_reverse]⟩
      · next item rest hfirst =>
        obtain ⟨hstop, left, hrest⟩ := ih h
        refine ⟨hstop, left, ?_⟩
        rw [readItems, hstep hfirst]
        exact hrest

omit hinner in
/-- Where the loop ends if there is no further step behind either. -/
theorem readItems_end {σ : Type} {c : Collection}
    {next : σ → Except ParseError (Option (Item × σ))} {s : σ} (h : next s = .ok none)
    (room : Nat) (nodes : List (Rose Label)) :
    readItems c next room nodes.reverse s = .ok (nodes, s) := by
  rw [readItems, h, List.reverse_reverse]

theorem readMapping_stop {indent : Nat} (hindent : 0 < indent) {l : Line}
    {rest after : List Line} {node : Rose Label}
    (h : readMapping inner indent (l :: rest) = .ok (node, after)) :
    readMapping inner indent (l :: rest ++ [endMark number]) =
      .ok (node, after ++ [endMark number]) := by
  unfold readMapping at h ⊢
  obtain ⟨⟨nodes, after'⟩, hread, h⟩ := exists_of_bind_eq_ok h
  cases h
  obtain ⟨hstop, left, hmore⟩ := readItems_append (nextEntry_stop hinner) hread
  rw [hmore, readItems_end (nextEntry_stop_none hindent hstop)]
  rfl

/-- The mark behind a mapping that is not indented is an entry without a colon. -/
theorem readMapping_endMark {l : Line} {rest after : List Line} {node : Rose Label}
    (h : readMapping inner 0 (l :: rest) = .ok (node, after)) :
    readMapping inner 0 (l :: rest ++ [endMark number]) = .error ⟨number, .missingColon⟩ := by
  unfold readMapping at h ⊢
  obtain ⟨⟨nodes, after'⟩, hread, h⟩ := exists_of_bind_eq_ok h
  obtain ⟨hstop, left, hmore⟩ := readItems_append (nextEntry_stop hinner) hread
  rw [hmore, readItems, nextEntry_endMark hstop]
  rfl

theorem readSequence_stop {indent : Nat} {l : Line} {rest after : List Line} {node : Rose Label}
    (h : readSequence inner indent (l :: rest) = .ok (node, after)) :
    readSequence inner indent (l :: rest ++ [endMark number]) =
      .ok (node, after ++ [endMark number]) := by
  unfold readSequence at h ⊢
  obtain ⟨⟨nodes, after'⟩, hread, h⟩ := exists_of_bind_eq_ok h
  cases h
  obtain ⟨hstop, left, hmore⟩ := readItems_append (nextItem_stop hinner) hread
  rw [hmore, readItems_end (nextItem_stop_none hstop)]
  rfl

/-- The first line with content starts a mapping that is not indented. -/
def Line.opensMapping (l : Line) : Bool :=
  l.indent == 0 && !isItem l.text && (blockColon l.text).isSome

omit hinner in
theorem exists_next_of_readBlock {indent : Nat} {ls : List Line} {r : Rose Label × List Line}
    (h : readBlock inner indent ls = .ok r) :
    ∃ l rest, skipIgnorable ls = l :: rest ∧ l.indent = indent := by
  unfold readBlock at h
  split at h
  · cases h
  next l rest hnext =>
  split at h
  · cases h
  next hlevel => exact ⟨l, rest, hnext, by simpa using hlevel⟩

theorem readBlock_stop {indent : Nat} {ls rest after : List Line} {l : Line} {node : Rose Label}
    (hnext : skipIgnorable ls = l :: rest) (h : readBlock inner indent ls = .ok (node, after)) :
    readBlock inner indent (ls ++ [endMark number]) =
      if l.opensMapping then .error ⟨number, .missingColon⟩
      else .ok (node, after ++ [endMark number]) := by
  unfold readBlock at h ⊢
  rw [hnext] at h
  rw [skipIgnorable_append hnext]
  simp only at h ⊢
  split at h
  · cases h
  next hlevel =>
  obtain rfl : l.indent = indent := by simpa using hlevel
  rw [if_neg hlevel]
  unfold Line.opensMapping
  by_cases hitem : isItem l.text = true
  · rw [if_pos hitem] at h ⊢
    rw [← List.cons_append, readSequence_stop hinner h]
    simp [hitem]
  rw [if_neg hitem] at h ⊢
  by_cases hcolon : (blockColon l.text).isSome = true
  · rw [if_pos hcolon] at h ⊢
    rw [← List.cons_append]
    by_cases hindent : l.indent = 0
    · rw [hindent] at h ⊢
      rw [readMapping_endMark hinner h]
      simp [hitem, hcolon]
    · rw [readMapping_stop hinner (Nat.pos_of_ne_zero hindent) h]
      simp [hindent]
  · rw [if_neg hcolon] at h ⊢
    obtain ⟨node', hnode, hpair⟩ := exists_of_map_eq_ok h
    cases hpair
    simp [hnode, hcolon, Except.map]

end Stop

/-! #### All levels -/

theorem stopping_noReaders (number : Nat) : Stopping number noReaders where
  block _ h := absurd h (refuseDeeper_ne_ok _ _ _)
  sequence h := absurd h (refuseDeeper_ne_ok _ _ _)

theorem stopping_readers (number : Nat) : ∀ room, Stopping number (readers room)
  | 0 =>
    { block := fun _ h => absurd h (refuseDeeper_ne_ok _ _ _)
      sequence := fun h => readSequence_stop (stopping_noReaders number) h }
  | room + 1 =>
    { block := fun hindent h => by
        obtain ⟨l, rest, hnext, hlevel⟩ := exists_next_of_readBlock h
        have hopens : l.opensMapping = false := by
          rw [Line.opensMapping, hlevel, beq_false_of_ne (Nat.ne_of_gt hindent)]
          rfl
        have hstop := readBlock_stop (stopping_readers number room) hnext h
        rwa [hopens] at hstop
      sequence := fun h => readSequence_stop (stopping_readers number room) h }

/-! #### The root -/

theorem rootLines_append {ls rest : List Line} {l : Line} (h : rootLines ls = l :: rest)
    (below : List Line) : rootLines (ls ++ below) = l :: (rest ++ below) := by
  unfold rootLines behindMark at h ⊢
  cases hnext : skipIgnorable ls with
  | nil =>
      rw [hnext] at h
      cases h
  | cons first more =>
      rw [hnext] at h
      rw [skipIgnorable_append hnext]
      simp only at h ⊢
      by_cases hmark : (trim first.rest == ['-', '-', '-']) = true
      · rw [if_pos hmark] at h ⊢
        exact skipIgnorable_append h below
      · rw [if_neg hmark] at h ⊢
        exact skipIgnorable_append h below

/-- The end of a document is where no line has content, or at the mark. -/
theorem finish_endMark {root node : Rose Label} {number : Nat} {after last : List Line}
    (hmarks : ∀ l ∈ after, trim l.rest ≠ ['.', '.', '.'])
    (h : finish root after = .ok (node, last)) :
    finish root (after ++ [endMark number]) = .ok (node, []) := by
  unfold finish at h ⊢
  cases hnext : skipIgnorable after with
  | nil =>
      rw [hnext] at h
      cases h
      rw [skipIgnorable_endMark hnext]
      rfl
  | cons l rest =>
      have hmem : l ∈ after := (skipIgnorable_suffix hnext).subset List.mem_cons_self
      rw [hnext] at h
      simp only at h
      rw [if_neg (by simpa using hmarks l hmem)] at h
      cases h

theorem readRoot_stop (number : Nat) {ls rest last : List Line} {l : Line} {node : Rose Label}
    (hroot : rootLines ls = l :: rest) (hmarks : ∀ l ∈ ls, trim l.rest ≠ ['.', '.', '.'])
    (h : readRoot ls = .ok (node, last)) :
    readRoot (ls ++ [endMark number]) =
      if l.opensMapping then .error ⟨number, .missingColon⟩ else .ok (node, []) := by
  have hnext : skipIgnorable (l :: rest) = l :: rest := skipIgnorable_next hroot
  rw [readRoot_eq, hroot] at h
  rw [readRoot_eq, rootLines_append hroot]
  obtain ⟨⟨root, after⟩, hblock, hfinish⟩ := exists_of_bind_eq_ok h
  have hstop := readBlock_stop (stopping_readers number maxDepth) hnext hblock
  have hsuffix : after <:+ ls := by
    have hbeyond := ((sound_readers (maxDepth + 1)).block hblock).beyond
    exact hbeyond.suffix.trans (hroot ▸ rootLines_suffix ls)
  have hend := @finish_endMark _ _ number _ _ (fun l hl => hmarks l (hsuffix.subset hl)) hfinish
  show (readBlock (readers maxDepth) l.indent (l :: rest ++ [endMark number]) >>= _) = _
  rw [hstop]
  by_cases hopens : l.opensMapping = true
  · rw [if_pos hopens, if_pos hopens]
    rfl
  · rw [if_neg hopens, if_neg hopens]
    exact hend

/-! ### The mark in front -/

/-- The line, one further down. -/
def Line.down (l : Line) : Line := { l with number := l.number + 1 }

/-- Lines move down by one, and columns stay. -/
def Shift.down : Shift := ⟨(· + 1), 0⟩

/-- Two runs on lines and on the same lines one further down. -/
def lowering : Tandem (List Line) :=
  ⟨.down, fun _ => False, fun _ => False, fun ls ls' => ls' = ls.map Line.down⟩

theorem alike_down (l : Line) : Alike .down l l.down := ⟨rfl, rfl, rfl⟩

theorem skipIgnorable_down (ls : List Line) :
    skipIgnorable (ls.map Line.down) = (skipIgnorable ls).map Line.down := by
  rw [skipIgnorable, List.dropWhile_map]
  rfl

theorem takeBlock_down (parent : Nat) (ls : List Line) (indent : Option Nat)
    (done : List (List Char)) :
    takeBlock parent indent done (ls.map Line.down) =
      ((takeBlock parent indent done ls).1, (takeBlock parent indent done ls).2.map Line.down) := by
  have hlevel : textLevel parent indent (ls.map Line.down) = textLevel parent indent ls := by
    rw [textLevel, textLevel, List.find?_map]
    show indent.getD (max _ (((ls.find? (!allBlank ·.text)).map Line.down).elim 0 Line.indent)) = _
    cases ls.find? (!allBlank ·.text) with
    | none => rfl
    | some l => rfl
  rw [takeBlock_eq, takeBlock_eq, hlevel, List.takeWhile_map, List.dropWhile_map, List.map_map]
  rfl

theorem parallel_lowering : Parallel lowering where
  suffix hgone := hgone.elim
  late hgone := hgone.elim
  count hgone := hgone.elim
  next := by
    rintro ls - rfl
    refine .inr ?_
    rw [skipIgnorable_down]
    cases hnext : skipIgnorable ls with
    | nil => exact .inl ⟨rfl, rfl⟩
    | cons l rest =>
        refine .inr ⟨l, l.down, rest, rest.map Line.down, rfl, rfl, alike_down l, rfl, rfl,
          fun _ => rfl, ?_⟩
        intro tail header _ _
        refine .inr ⟨_, ?_, rfl⟩
        unfold Header.readBlock
        simp only [takeBlock_down]
        rfl

/-! ### Documents -/

/-- The lines of a text between the two marks. -/
def Marked (text marked : List Char) : Prop :=
  lines marked = ['-', '-', '-'] :: (lines text ++ [['.', '.', '.']])

instance (text marked : List Char) : Decidable (Marked text marked) :=
  inferInstanceAs (Decidable (lines marked = _))

/-- The first line with content starts a mapping that is not indented. -/
def opensMapping (text : List Char) : Bool :=
  match contentLines text with
  | [] => false
  | line :: _ => line.head? != some ' ' && !isItem line && (blockColon line).isSome

theorem linesOf_marked {text marked : List Char} (h : Marked text marked) :
    linesOf marked = ⟨1, 0, ['-', '-', '-']⟩ ::
      ((linesOf text).map Line.down ++ [endMark ((lines text).length + 2)]) := by
  have hlast : 0 + 1 + (lines text).length + 1 = (lines text).length + 2 := by omega
  rw [linesOf, h, List.zipIdx_cons, List.map_cons, List.zipIdx_append, List.map_append,
    List.zipIdx_succ, List.map_map, linesOf, List.map_map, List.zipIdx_singleton,
    List.map_singleton]
  simp only [hlast]
  rfl

/-- The first line with content is the one that a reader starts from. -/
theorem contentLines_cons {text : List Char} {l : Line} {rest : List Line}
    (h : skipIgnorable (linesOf text) = l :: rest) :
    ∃ more, contentLines text = l.rest :: more := by
  have hcontent : (!l.ignorable) = true := by
    rw [not_ignorable_of_skip h]
    rfl
  have hfilter := List.filter_cons_of_pos (p := (!·.ignorable)) (l := rest) hcontent
  rw [contentLines_eq, ← filter_skipIgnorable, h, hfilter]
  exact ⟨_, List.map_cons⟩

theorem opensMapping_eq {text : List Char} {l : Line} {rest : List Line}
    (h : skipIgnorable (linesOf text) = l :: rest) :
    l.opensMapping = opensMapping text := by
  obtain ⟨more, hlines⟩ := contentLines_cons h
  have hoffset := offset_of_mem ((skipIgnorable_suffix h).subset List.mem_cons_self)
  obtain ⟨number, offset, line⟩ := l
  obtain rfl : offset = 0 := hoffset
  unfold opensMapping Line.opensMapping
  rw [hlines]
  cases line with
  | nil => rfl
  | cons c cs =>
      by_cases hspace : c = ' '
      · subst hspace
        simp [Line.indent]
      · have htext : Line.text ⟨number, 0, c :: cs⟩ = c :: cs := by simp [Line.text, hspace]
        have hhead : (some c != some ' ') = true := by simpa using hspace
        simp [Line.indent, htext, hspace, hhead]

/-- Where no line with content is a mark, the root starts on the first one. -/
theorem rootLines_eq_skip {ls : List Line} (h : ∀ l ∈ ls, trim l.rest ≠ ['-', '-', '-']) :
    rootLines ls = skipIgnorable ls := by
  unfold rootLines behindMark
  cases hnext : skipIgnorable ls with
  | nil => rfl
  | cons l rest =>
      have hmem : l ∈ ls := (skipIgnorable_suffix hnext).subset List.mem_cons_self
      simp only
      rw [if_neg (by simpa using h l hmem), skipIgnorable_next hnext]

theorem readRoot_startMark {ls : List Line} (number : Nat)
    (h : ∀ l ∈ ls, trim l.rest ≠ ['-', '-', '-']) :
    readRoot (⟨number, 0, ['-', '-', '-']⟩ :: ls) = readRoot ls := by
  have hroot : rootLines (⟨number, 0, ['-', '-', '-']⟩ :: ls) = skipIgnorable ls := rfl
  rw [readRoot_eq, readRoot_eq, hroot, rootLines_eq_skip h]

theorem read_marked {text marked : List Char} {node : Rose Label}
    (h : Document.read text = .ok node) (hcontent : contentLines text ≠ [])
    (hmarks : ∀ line ∈ lines text, trim line ≠ ['-', '-', '-'] ∧ trim line ≠ ['.', '.', '.'])
    (hlength : (lines text).length + 2 ≤ maxLines) (hmarked : Marked text marked) :
    Document.read marked =
      if opensMapping text then .error ⟨(lines text).length + 2, .missingColon⟩
      else .ok (Shift.down.tree node) := by
  have hlength' : (lines marked).length ≤ maxLines := by
    rw [hmarked, List.length_cons, List.length_append]
    exact hlength
  have hline : ∀ l ∈ linesOf text,
      trim l.rest ≠ ['-', '-', '-'] ∧ trim l.rest ≠ ['.', '.', '.'] := by
    intro l hl
    obtain ⟨i, hi⟩ := List.mem_iff_getElem?.1 hl
    exact hmarks l.rest (List.mem_of_getElem? (getElem?_linesOf hi).2.2)
  have hdown : ∀ l ∈ (linesOf text).map Line.down,
      trim l.rest ≠ ['-', '-', '-'] ∧ trim l.rest ≠ ['.', '.', '.'] := by
    intro l hl
    obtain ⟨l', hl', rfl⟩ := List.mem_map.1 hl
    exact hline l' hl'
  have hroot := rootLines_eq_skip fun l hl => (hline l hl).1
  obtain ⟨l, rest, hnext⟩ : ∃ l rest, skipIgnorable (linesOf text) = l :: rest := by
    refine List.exists_cons_of_ne_nil fun hnil => hcontent ?_
    rw [contentLines_eq, ← filter_skipIgnorable, hnil]
    rfl
  rw [read_of_length_le (by omega)] at h
  obtain ⟨last, hlowered⟩ : ∃ last,
      readRoot ((linesOf text).map Line.down) = .ok (Shift.down.tree node, last) := by
    have htogether := readRoot_together parallel_lowering (fun _ => id) (fun _ => id)
      (rfl : lowering.left (linesOf text) ((linesOf text).map Line.down))
    rw [h, hroot, hnext, if_neg (List.cons_ne_nil l rest)] at htogether
    obtain ⟨⟨node', last⟩, hread, hnode⟩ := exists_of_map_eq_ok htogether
    exact ⟨last, hnode ▸ hread⟩
  have hstart : rootLines ((linesOf text).map Line.down) = l.down :: rest.map Line.down := by
    rw [rootLines_eq_skip fun l hl => (hdown l hl).1, skipIgnorable_down, hnext, List.map_cons]
  have hstop := readRoot_stop ((lines text).length + 2) hstart (fun l hl => (hdown l hl).2) hlowered
  have hopens : l.down.opensMapping = l.opensMapping := rfl
  rw [read_of_length_le hlength', linesOf_marked hmarked, readRoot_startMark, hstop, hopens,
    opensMapping_eq hnext]
  · split <;> rfl
  · intro l hl
    rcases List.mem_append.1 hl with hl | hl
    · exact (hdown l hl).1
    · rw [List.mem_singleton.1 hl]
      show trim ['.', '.', '.'] ≠ ['-', '-', '-']
      decide

end Document

/-- **Marks around a document change nothing but the numbers of its lines**, unless its root is a
mapping that is not indented: that takes the mark behind it for an entry. -/
theorem parse_marked {text marked : String} {t : Tree} (h : parse text = .ok t)
    (hcontent : Document.contentLines text.toList ≠ [])
    (hmarks : ∀ line ∈ Text.lines text.toList,
      Text.trim line ≠ ['-', '-', '-'] ∧ Text.trim line ≠ ['.', '.', '.'])
    (hlength : (Text.lines text.toList).length + 2 ≤ Document.maxLines)
    (hmarked : Document.Marked text.toList marked.toList) :
    parse marked =
      if Document.opensMapping text.toList then
        .error ⟨(Text.lines text.toList).length + 2, .missingColon⟩
      else .ok (t.renumber (· + 1)) := by
  obtain ⟨node, hread, rfl⟩ := exists_of_map_eq_ok h
  rw [parse, Document.read_marked hread hcontent hmarks hlength hmarked]
  split
  · rfl
  · exact congrArg Except.ok (Tree.ofRose_map _ node)

/-- A sequence of a mapping and of a block scalar that says how it is indented. -/
theorem parse_marked_sequence :
    ∃ t, parse "- a: 1\n- |2\n\n   b\n" = .ok t ∧
      Document.contentLines "- a: 1\n- |2\n\n   b\n".toList ≠ [] ∧
      (∀ line ∈ Text.lines "- a: 1\n- |2\n\n   b\n".toList,
        Text.trim line ≠ ['-', '-', '-'] ∧ Text.trim line ≠ ['.', '.', '.']) ∧
      parse "---\n- a: 1\n- |2\n\n   b\n...\n" = .ok (t.renumber (· + 1)) := by
  have hread : Document.read "- a: 1\n- |2\n\n   b\n".toList = .ok
      (.node ⟨.seq, "", 1, 1⟩ [.node ⟨.map, "", 1, 3⟩ [Document.leaf .str ['a'] 1 3,
        Document.leaf .int ['1'] 1 6], Document.leaf .str "\n b\n".toList 2 3]) := by cbv
  have hparse : parse "- a: 1\n- |2\n\n   b\n" = .ok (Tree.ofRose _) :=
    congrArg (Except.map Tree.ofRose) hread
  have hcontent : Document.contentLines "- a: 1\n- |2\n\n   b\n".toList ≠ [] := by decide +kernel
  have hmarks : ∀ line ∈ Text.lines "- a: 1\n- |2\n\n   b\n".toList,
      Text.trim line ≠ ['-', '-', '-'] ∧ Text.trim line ≠ ['.', '.', '.'] := by decide +kernel
  exact ⟨_, hparse, hcontent, hmarks,
    parse_marked hparse hcontent hmarks (by decide +kernel) (by decide +kernel)⟩

/-- A mapping that is read, but not between the marks. -/
theorem marked_mapping :
    ∃ t, parse "a: 1\n" = .ok t ∧ Document.contentLines "a: 1\n".toList ≠ [] ∧
      (∀ line ∈ Text.lines "a: 1\n".toList,
        Text.trim line ≠ ['-', '-', '-'] ∧ Text.trim line ≠ ['.', '.', '.']) ∧
      (Text.lines "a: 1\n".toList).length ≤ 99998 ∧
      Document.Marked "a: 1\n".toList "---\na: 1\n...\n".toList ∧
      parse "---\na: 1\n...\n" ≠ .ok (t.renumber (· + 1)) := by
  have hread : Document.read "a: 1\n".toList = .ok (.node ⟨.map, "", 1, 1⟩
      [Document.leaf .str ['a'] 1 1, Document.leaf .int ['1'] 1 4]) := by cbv
  have hparse := congrArg (Except.map Tree.ofRose) hread
  have hrefused : parse "---\na: 1\n...\n" = .error ⟨3, .missingColon⟩ := by cbv
  refine ⟨_, hparse, by decide +kernel, by decide +kernel, by decide +kernel,
    by decide +kernel, ?_⟩
  rw [hrefused]
  intro hsame
  cases hsame

end YamlDecode
