/-
Two runs of the reader, side by side.

Where two documents differ only in what a reader passes over, or only behind what it looks at,
it finds the same in both, at other places.  What is needed for that is said of the lines that
are left: `Parallel` asks that the next lines with content are alike and that what is left
behind them goes together again, whether they are taken whole, in part, or as a block scalar.

The documents need not have everything in common.  Lines are `gone` if nothing of what they
hold is shared, and then nothing is asked of the second run.  What the first one still reads
leaves lines that are gone, and where it stops with an error, that error is `late`.

A reader keeps runs together: this is `Follows`, for one level at a time, and the induction is
again on how deep readers may go.
-/
import YamlDecode.Proofs.Document.Refusal

namespace YamlDecode.Document

open YamlDecode.Text

/-! ### Other places -/

/-- How places in one document become places in another. -/
structure Shift where
  line : Nat → Nat
  columns : Nat

namespace Shift

variable (m : Shift)

def label (l : Label) : Label :=
  { l with line := m.line l.line, column := l.column + m.columns }

def tree (r : Rose Label) : Rose Label := r.map m.label

def item (i : Item) : Item := ⟨m.line i.line, i.nodes.map m.tree⟩

/-- Some faults name an indentation. -/
def fault : Fault → Fault
  | .unexpectedIndent expected found => .unexpectedIndent (expected + m.columns) (found + m.columns)
  | .deeperIndent c expected => .deeperIndent c (expected + m.columns)
  | fault => fault

def error (e : ParseError) : ParseError := ⟨m.line e.line, m.fault e.fault⟩

/-- Where columns stay, indentations do. -/
theorem error_eq {m : Shift} (h : m.columns = 0) (e : ParseError) :
    m.error e = ⟨m.line e.line, e.fault⟩ := by
  obtain ⟨line, fault⟩ := e
  cases fault
  all_goals simp [error, Shift.fault, h]

/-- What is read, or the error, at its other place. -/
def outcome {α : Type} (move : α → α) : Except ParseError α → Except ParseError α
  | .error e => .error (m.error e)
  | .ok a => .ok (move a)

theorem outcome_bind {α β : Type} {move : α → α} {move' : β → β} {x : Except ParseError α}
    {f f' : α → Except ParseError β}
    (h : ∀ a, f' (move a) = m.outcome move' (f a)) :
    (m.outcome move x >>= f') = m.outcome move' (x >>= f) := by
  cases x with
  | error e => rfl
  | ok a => exact h a

theorem tree_node (tag : Tag) (value : String) (line column : Nat) (cs : List (Rose Label)) :
    m.tree (.node ⟨tag, value, line, column⟩ cs) =
      .node ⟨tag, value, m.line line, column + m.columns⟩ (cs.map m.tree) :=
  congrArg (Rose.node _) (Rose.mapAll_eq m.label cs)

end Shift

/-! ### Runs that go together -/

/-- What two runs share. -/
structure Tandem (σ : Type) where
  shift : Shift
  /-- The second run need not end with that error. -/
  late : ParseError → Prop
  /-- Nothing of what is left is shared. -/
  gone : σ → Prop
  /-- What is left of both runs goes together. -/
  left : σ → σ → Prop

namespace Tandem

variable {σ α β : Type}

/-- Everything is shared. -/
def same (m : Shift) : Tandem σ := ⟨m, fun _ => False, fun _ => False, Eq⟩

/-- The same runs at their end, where it does not matter what is left. -/
def ended (p : Tandem σ) : Tandem σ :=
  { p with gone := fun _ => ∃ s, p.gone s, left := fun _ _ => True }

/-- What the second run finds, next to what the first one does. -/
def Follows (p : Tandem σ) (move : α → α) :
    Except ParseError (α × σ) → Except ParseError (α × σ) → Prop
  | .error e, r => p.late e ∨ r = .error (p.shift.error e)
  | .ok (a, s), r => p.gone s ∨ ∃ s', r = .ok (move a, s') ∧ p.left s s'

/-- The same for the next item of a collection.  If there is none, nothing was taken of what is
left. -/
def FollowsNext (p : Tandem σ) (s : σ) :
    Except ParseError (Option (Item × σ)) → Except ParseError (Option (Item × σ)) → Prop
  | .error e, r => p.late e ∨ r = .error (p.shift.error e)
  | .ok none, r => p.gone s ∨ r = .ok none
  | .ok (some (item, t)), r =>
    p.gone t ∨ ∃ t', r = .ok (some (p.shift.item item, t')) ∧ p.left t t'

variable {p : Tandem σ} {move : α → α} {move' : β → β} {x x' : Except ParseError (α × σ)}

theorem Follows.of_gone (late : ∀ {e}, x = .error e → p.late e)
    (gone : ∀ {a s}, x = .ok (a, s) → p.gone s) : p.Follows move x x' := by
  rcases x with e | ⟨a, s⟩
  · exact .inl (late rfl)
  · exact .inl (gone rfl)

theorem FollowsNext.of_gone {s : σ} {x x' : Except ParseError (Option (Item × σ))}
    (hs : p.gone s) (late : ∀ {e}, x = .error e → p.late e)
    (gone : ∀ {item t}, x = .ok (some (item, t)) → p.gone t) : p.FollowsNext s x x' := by
  rcases x with e | - | ⟨item, t⟩
  · exact .inl (late rfl)
  · exact .inl hs
  · exact .inl (gone rfl)

theorem Follows.of_eq {s s' : σ} {x : Except ParseError α} (h : p.left s s') :
    p.Follows move (x.map fun a => (a, s)) ((p.shift.outcome move x).map fun a => (a, s')) := by
  rcases x with e | a
  · exact .inr rfl
  · exact .inr ⟨s', rfl, h⟩

/-- What is made of what was read. -/
theorem Follows.bind (h : p.Follows move x x') (f f' : α → β)
    (hf : ∀ a, f' (move a) = move' (f a)) :
    p.Follows move' (x >>= fun r => pure (f r.1, r.2)) (x' >>= fun r => pure (f' r.1, r.2)) := by
  rcases x with e | ⟨a, s⟩
  · exact h.imp id fun hx => by rw [hx]; rfl
  · refine h.imp id ?_
    rintro ⟨s', rfl, hleft⟩
    exact ⟨s', congrArg (fun b => Except.ok (b, s')) (hf a), hleft⟩

/-- An item is made of what was read. -/
theorem Follows.next (h : p.Follows move x x') (f f' : α → Item)
    (hf : ∀ a, f' (move a) = p.shift.item (f a)) (s : σ) :
    p.FollowsNext s (x >>= fun r => pure (some (f r.1, r.2)))
      (x' >>= fun r => pure (some (f' r.1, r.2))) := by
  rcases x with e | ⟨a, t⟩
  · exact h.imp id fun hx => by rw [hx]; rfl
  · refine h.imp id ?_
    rintro ⟨t', rfl, hleft⟩
    exact ⟨t', congrArg (fun i => Except.ok (some (i, t'))) (hf a), hleft⟩

/-! ### Loops -/

section Loop

variable {c : Collection} {next next' : σ → Except ParseError (Option (Item × σ))}

theorem gone_of_reads (gone : ∀ {s item t}, p.gone s → next s = .ok (some (item, t)) → p.gone t)
    {s t : σ} {items : List Item} (h : Reads next Eq s items t) (hs : p.gone s) : p.gone t := by
  induction h with
  | nil _ => exact hs
  | cons first _ _ ih => exact ih (gone hs first)

/-- A loop keeps runs together if each of its steps does.  Where nothing is shared any more, the
steps that are left must not bring it back, and items too many must be late. -/
theorem readItems_follows
    (follows : ∀ {s s'}, p.left s s' → p.FollowsNext s (next s) (next' s'))
    (late : ∀ {s e}, p.gone s → next s = .error e → p.late e)
    (gone : ∀ {s item t}, p.gone s → next s = .ok (some (item, t)) → p.gone t)
    (count : ∀ {s line}, p.gone s → p.late ⟨line, .tooManyItems c⟩) {room : Nat} :
    ∀ {done : List (Rose Label)} {s s' : σ}, p.left s s' →
      p.Follows (List.map p.shift.tree) (readItems c next room done s)
        (readItems c next' room (done.map p.shift.tree) s') := by
  -- Where nothing is shared any more, nothing is asked of the second run.
  have halone : ∀ {room done s x'}, p.gone s →
      p.Follows (List.map p.shift.tree) (readItems c next room done s) x' := by
    intro room done s x' hs
    refine .of_gone (fun h => ?_) fun h => ?_
    · exact readItems_eq_error (fun _ => p.gone) late (fun hs _ => count hs) gone hs h
    · obtain ⟨items, hreads, -⟩ := reads_of_readItems h
      exact gone_of_reads gone hreads hs
  induction room with
  | zero =>
      intro done s s' hleft
      have hnext := follows hleft
      unfold readItems
      rcases hs : next s with e | - | ⟨item, t⟩ <;> rw [hs] at hnext
      · exact hnext.imp id fun h => by rw [h]
      · refine hnext.imp id fun h => ⟨s', ?_, hleft⟩
        rw [h, List.map_reverse]
      · rcases hnext with hgone | ⟨t', h, -⟩
        · exact .inl (count hgone)
        · exact .inr (by rw [h]; rfl)
  | succ room ih =>
      intro done s s' hleft
      have hnext := follows hleft
      unfold readItems
      rcases hs : next s with e | - | ⟨item, t⟩ <;> rw [hs] at hnext
      · exact hnext.imp id fun h => by rw [h]
      · refine hnext.imp id fun h => ⟨s', ?_, hleft⟩
        rw [h, List.map_reverse]
      · rcases hnext with hgone | ⟨t', h, htail⟩
        · exact halone hgone
        · have hrest := @ih (item.nodes.reverse ++ done) t t' htail
          rw [h]
          rwa [List.map_append, List.map_reverse] at hrest

end Loop

end Tandem

/-! ### Values on one line -/

section Inline

variable (m : Shift) {line column : Nat}

theorem readKey_move (text : List Char) :
    readKey (m.line line) (column + m.columns) text =
      m.outcome m.tree (readKey line column text) := by
  unfold readKey
  simp only
  split
  · rfl
  split
  · split
    · rfl
    · split <;> rfl
  · rfl

section Collection

variable {value value' : Nat → List Char → Except ParseError (Rose Label)}

theorem flowEntry_move
    (hvalue : ∀ column text,
      value' (column + m.columns) text = m.outcome m.tree (value column text))
    (p : Scanner.Piece) : flowEntry value' (m.line line) (column + m.columns) p =
      m.outcome m.item (flowEntry value line column p) := by
  have hstart : column + m.columns + 1 + p.offset + blankWidth p.text =
      column + 1 + p.offset + blankWidth p.text + m.columns := by omega
  unfold flowEntry
  simp only [hstart]
  split
  · rfl
  · next before after _ =>
    have hcolumn : ∀ start, start + m.columns + width before + 1 + blankWidth after =
        start + width before + 1 + blankWidth after + m.columns := fun start => by omega
    rw [readKey_move, hcolumn, hvalue]
    exact m.outcome_bind fun key => m.outcome_bind fun node => rfl

theorem flowItem_move
    (hvalue : ∀ column text,
      value' (column + m.columns) text = m.outcome m.tree (value column text))
    (p : Scanner.Piece) : flowItem value' (m.line line) (column + m.columns) p =
      m.outcome m.item (flowItem value line column p) := by
  have hstart : column + m.columns + 1 + p.offset + blankWidth p.text =
      column + 1 + p.offset + blankWidth p.text + m.columns := by omega
  unfold flowItem
  rw [hstart, hvalue]
  exact m.outcome_bind fun node => rfl

end Collection

theorem flowItems_move {c : Collection} {item item' : Scanner.Piece → Except ParseError Item}
    (hitem : ∀ p, item' p = m.outcome m.item (item p)) (inner : List Char) :
    flowItems c item' inner = m.outcome (List.map m.tree) (flowItems c item inner) := by
  have hnext : ∀ {ps ps'}, ps = ps' → (Tandem.same m).FollowsNext ps (nextFlowItem item ps)
      (nextFlowItem item' ps') := by
    rintro ps - rfl
    unfold nextFlowItem
    split
    · exact .inr rfl
    · next p rest _ =>
      rw [hitem]
      cases item p with
      | error e => exact .inr rfl
      | ok i => exact .inr ⟨rest, rfl, rfl⟩
  have hitems : (Tandem.same m).Follows (List.map m.tree)
      (readItems c (nextFlowItem item) maxItems [] (flowPieces inner))
      (readItems c (nextFlowItem item') maxItems [] (flowPieces inner)) :=
    Tandem.readItems_follows hnext False.elim False.elim False.elim rfl
  rw [flowItems_eq_readItems, flowItems_eq_readItems]
  rcases hread : readItems c (nextFlowItem item) maxItems [] (flowPieces inner) with
    e | ⟨nodes, rest⟩
  all_goals rw [hread] at hitems
  · rcases hitems with hfalse | hitems
    · exact hfalse.elim
    · exact congrArg _ hitems
  · rcases hitems with hfalse | ⟨rest', hitems, -⟩
    · exact hfalse.elim
    · exact congrArg _ hitems

/-- A value on one line is the same at another place. -/
theorem readInline_move {room : Nat} : ∀ (column : Nat) (text : List Char),
    readInline room (m.line line) (column + m.columns) text =
      m.outcome m.tree (readInline room line column text) := by
  induction room with
  | zero => exact fun _ _ => rfl
  | succ room ih =>
      intro column text
      unfold readInline
      simp only
      split
      · rfl
      split
      · split
        · rfl
        · split <;> rfl
      · unfold readUnquoted
        split
        · split
          · rfl
          · next inner _ =>
            rw [flowItems_move m (flowEntry_move m ih) inner]
            exact m.outcome_bind fun nodes => congrArg _ (m.tree_node _ _ _ _ nodes).symm
        · split
          · rfl
          · next inner _ =>
            rw [flowItems_move m (flowItem_move m ih) inner]
            exact m.outcome_bind fun nodes => congrArg _ (m.tree_node _ _ _ _ nodes).symm
        · rfl

end Inline

/-! ### Lines -/

/-- A line at another place, indented by as much more as columns are moved. -/
structure Alike (m : Shift) (l l' : Line) : Prop where
  number : l'.number = m.line l.number
  text : l'.text = l.text
  indent : l'.indent = l.indent + m.columns

theorem Line.columnOf_eq (l : Line) (tail : List Char) :
    l.columnOf tail = l.indent + width l.text - width tail + 1 := by
  have hwidth := width_spaces l.rest
  rw [columnOf, indent, text]
  omega

theorem Alike.columnOf {m : Shift} {l l' : Line} (h : Alike m l l') {tail : List Char}
    (htail : tail <:+ l.text) : l'.columnOf tail = l.columnOf tail + m.columns := by
  obtain ⟨front, hfront⟩ := htail
  have hwidth := width_append front tail
  rw [hfront] at hwidth
  rw [Line.columnOf_eq, Line.columnOf_eq, h.text, h.indent]
  omega

theorem Alike.indent_lt {m : Shift} {l l' : Line} (h : Alike m l l') {n : Nat} :
    l'.indent < n + m.columns ↔ l.indent < n := by
  rw [h.indent]
  omega

theorem Alike.lt_indent {m : Shift} {l l' : Line} (h : Alike m l l') {n : Nat} :
    n + m.columns < l'.indent ↔ n < l.indent := by
  rw [h.indent]
  omega

theorem Alike.offset_passTo {m : Shift} {l l' : Line} (h : Alike m l l') {tail : List Char}
    (htail : tail <:+ l.text) : (l'.passTo tail).offset = (l.passTo tail).offset + m.columns := by
  have hcolumn : (l'.passTo tail).offset + 1 = (l.passTo tail).offset + 1 + m.columns :=
    h.columnOf htail
  omega

theorem Alike.passTo {m : Shift} {l l' : Line} (h : Alike m l l') {tail : List Char}
    (htail : tail <:+ l.text) : Alike m (l.passTo tail) (l'.passTo tail) := by
  refine ⟨h.number, rfl, ?_⟩
  rw [Line.indent, Line.indent, h.offset_passTo htail]
  exact Nat.add_right_comm _ _ _

/-- Both runs are at a line with content. -/
structure Abreast (p : Tandem (List Line)) (l l' : Line) (rest rest' : List Line) : Prop where
  alike : Alike p.shift l l'
  again : p.left (l :: rest) (l' :: rest')
  below : p.left rest rest'
  passed : isItem l.text = true →
    p.left (l.passTo (Grammar.behindDash l) :: rest) (l'.passTo (Grammar.behindDash l) :: rest')
  scalar : ∀ {tail : List Char} {header : Header}, tail <:+ l.text →
    Header.read tail = .ok (some header) →
      p.gone (header.readBlock l.indent rest).2 ∨ ∃ after,
        header.readBlock l'.indent rest' = ((header.readBlock l.indent rest).1, after) ∧
          p.left (header.readBlock l.indent rest).2 after

/-- Runs that go together do so for as long as they share lines. -/
structure Parallel (p : Tandem (List Line)) : Prop where
  suffix : ∀ {ls after : List Line}, p.gone ls → after <:+ ls → p.gone after
  late : ∀ {ls : List Line} {e : ParseError}, p.gone ls → Blames ls e → p.late e
  count : ∀ {ls : List Line} {e : ParseError}, p.gone ls → e.fault.CountsLines → p.late e
  next : ∀ {ls ls' : List Line}, p.left ls ls' →
    p.gone ls ∨ skipIgnorable ls = [] ∧ skipIgnorable ls' = [] ∨
      ∃ l l' rest rest', skipIgnorable ls = l :: rest ∧ skipIgnorable ls' = l' :: rest' ∧
        Abreast p l l' rest rest'

/-! ### Blocks -/

/-- The readers of one level keep runs together. -/
structure Following (p : Tandem (List Line)) (inner : Readers) : Prop where
  block : ∀ {indent : Nat} {ls ls' rest : List Line} {l : Line}, p.left ls ls' →
    skipIgnorable ls = l :: rest → p.Follows p.shift.tree (inner.block indent ls)
      (inner.block (indent + p.shift.columns) ls')
  sequence : ∀ {indent : Nat} {l l' : Line} {rest rest' : List Line}, l.ignorable = false →
    isItem l.text = true → l.indent = indent → Abreast p l l' rest rest' →
      p.Follows p.shift.tree (inner.sequence indent (l :: rest))
        (inner.sequence (indent + p.shift.columns) (l' :: rest'))
  inline : ∀ (line column : Nat) (text : List Char),
    inner.inline (p.shift.line line) (column + p.shift.columns) text =
      p.shift.outcome p.shift.tree (inner.inline line column text)

section Levels

variable {p : Tandem (List Line)} {inner : Readers}

/-- A block that is read of lines with nothing to share. -/
theorem Parallel.block_gone (hp : Parallel p) (hblaming : Blaming inner) (hsound : Sound inner)
    {indent : Nat} {ls rest : List Line} {l : Line} {r : ReadResult} (hgone : p.gone ls)
    (hnext : skipIgnorable ls = l :: rest) :
    p.Follows p.shift.tree (inner.block indent ls) r :=
  .of_gone (fun h => hp.late hgone (hblaming.block hnext h))
    fun h => hp.suffix hgone (hsound.block h).beyond.suffix

theorem Parallel.sequence_gone (hp : Parallel p) (hblaming : Blaming inner) (hsound : Sound inner)
    {rest : List Line} {l : Line} {r : ReadResult} (hgone : p.gone (l :: rest))
    (hfirst : skipIgnorable (l :: rest) = l :: rest) (hitem : isItem l.text = true) :
    p.Follows p.shift.tree (inner.sequence l.indent (l :: rest)) r :=
  .of_gone (fun h => hp.late hgone (hblaming.sequence hfirst h))
    fun h => hp.suffix hgone ((hsound.sequence hitem h).beyond hfirst).suffix

variable (hp : Parallel p) (hinner : Following p inner) (hblaming : Blaming inner)
  (hsound : Sound inner) {l l' : Line} {rest rest' : List Line}

include hp hinner hblaming hsound

theorem readValue_follows (h : Abreast p l l' rest rest') (compact : Bool) {tail : List Char}
    (htail : tail <:+ l.text) :
    p.Follows p.shift.tree
      (readValue inner compact l.number l.indent (l.columnOf tail) tail rest)
      (readValue inner compact l'.number l'.indent (l'.columnOf tail) tail rest') := by
  unfold readValue
  rw [h.alike.columnOf htail, h.alike.number]
  split
  · rcases hp.next h.below with
      hgone | ⟨hnil, hnil'⟩ | ⟨n, n', below, below', hnext, hnext', hbelow⟩
    · split
      · exact .inl hgone
      · next n below hnext =>
        have hgone := hp.suffix hgone (skipIgnorable_suffix hnext)
        have hfirst := skipIgnorable_next hnext
        split
        · exact hp.block_gone hblaming hsound hgone hfirst
        split
        · next hcompact =>
          simp only [Bool.and_eq_true, beq_iff_eq] at hcompact
          rw [← hcompact.1.2]
          exact hp.sequence_gone hblaming hsound hgone hfirst hcompact.2
        · exact .inl (hp.suffix ‹_› (List.suffix_refl _))
    · rw [hnil, hnil']
      exact .inr ⟨rest', rfl, h.below⟩
    · rw [hnext, hnext']
      simp only [hbelow.alike.indent, hbelow.alike.text, h.alike.indent_lt]
      by_cases hdeeper : l.indent < n.indent
      · rw [if_pos hdeeper, if_pos hdeeper]
        exact hinner.block hbelow.again (skipIgnorable_next hnext)
      have hlevel : (n.indent + p.shift.columns == l'.indent) = (n.indent == l.indent) := by
        rw [h.alike.indent]
        simp
      rw [if_neg hdeeper, if_neg hdeeper, hlevel]
      split
      · next hcompact =>
        simp only [Bool.and_eq_true, beq_iff_eq] at hcompact
        rw [h.alike.indent]
        exact hinner.sequence (not_ignorable_of_skip hnext) hcompact.2 hcompact.1.2 hbelow
      · exact .inr ⟨rest', rfl, h.below⟩
  · split
    · next fault hfault =>
      cases readHeader_eq_error hfault
      exact .inr rfl
    · next header hheader =>
      refine (h.scalar htail hheader).imp id ?_
      rintro ⟨after, hread, hleft⟩
      simp only [hread]
      exact ⟨after, rfl, hleft⟩
    · rw [hinner.inline]
      exact .of_eq h.below

theorem nextEntry_follows {indent : Nat} {ls ls' : List Line} (hleft : p.left ls ls') :
    p.FollowsNext ls (nextEntry inner indent ls)
      (nextEntry inner (indent + p.shift.columns) ls') := by
  rcases hp.next hleft with hgone | ⟨hnil, hnil'⟩ | ⟨l, l', rest, rest', hnext, hnext', h⟩
  · exact .of_gone hgone (fun herror => hp.late hgone (nextEntry_eq_error hblaming herror))
      fun hsome => hp.suffix hgone (nextEntry_beyond hsound hsome).1.suffix
  · rw [nextEntry, nextEntry, hnil, hnil']
    exact .inr rfl
  rw [nextEntry, nextEntry, hnext, hnext']
  simp only [h.alike.text, h.alike.number, h.alike.indent_lt, h.alike.lt_indent]
  by_cases hless : l.indent < indent
  · rw [if_pos hless, if_pos hless]
    exact .inr rfl
  rw [if_neg hless, if_neg hless]
  by_cases hmore : indent < l.indent
  · rw [if_pos hmore, if_pos hmore]
    exact .inr rfl
  rw [if_neg hmore, if_neg hmore]
  obtain rfl : l.indent = indent := by omega
  split
  · exact .inr rfl
  split
  · exact .inr rfl
  · next before after hcolon =>
    have hvalue := readValue_follows hp hinner hblaming hsound h true
      (Grammar.behindColon_suffix_text hcolon)
    have hkey := @readKey_move p.shift l.number (l.indent + 1) before
    rw [Nat.add_right_comm] at hkey
    rw [h.alike.number, h.alike.indent] at hvalue
    rw [hkey]
    cases readKey l.number (l.indent + 1) before with
    | error e => exact .inr rfl
    | ok key =>
        exact hvalue.next (fun node => ⟨l.number, [key, node]⟩)
          (fun node => ⟨p.shift.line l.number, [p.shift.tree key, node]⟩) (fun node => rfl) ls

theorem nextItem_follows {indent : Nat} {ls ls' : List Line} (hleft : p.left ls ls') :
    p.FollowsNext ls (nextItem inner indent ls)
      (nextItem inner (indent + p.shift.columns) ls') := by
  rcases hp.next hleft with hgone | ⟨hnil, hnil'⟩ | ⟨l, l', rest, rest', hnext, hnext', h⟩
  · exact .of_gone hgone (fun herror => hp.late hgone (nextItem_eq_error hblaming herror))
      fun hsome => hp.suffix hgone (nextItem_beyond hsound hsome).1.suffix
  · rw [nextItem, nextItem, hnil, hnil']
    exact .inr rfl
  rw [nextItem, nextItem, hnext, hnext']
  simp only [h.alike.text, h.alike.number, h.alike.indent_lt, h.alike.lt_indent]
  by_cases hless : l.indent < indent
  · rw [if_pos hless, if_pos hless]
    exact .inr rfl
  rw [if_neg hless, if_neg hless]
  by_cases hmore : indent < l.indent
  · rw [if_pos hmore, if_pos hmore]
    exact .inr rfl
  rw [if_neg hmore, if_neg hmore]
  obtain rfl : l.indent = indent := by omega
  split
  · exact .inr rfl
  next hitem =>
  have hitem : isItem l.text = true := by simpa using hitem
  have htail := Grammar.behindDash_suffix_text l
  have hdash : Grammar.behindDash l = trimStart l.text.tail := rfl
  rw [← hdash]
  by_cases hstarts : startsBlock (Grammar.behindDash l) = true
  · rw [if_pos hstarts, if_pos hstarts]
    have hpassed := h.passed hitem
    have hcontent := Line.ignorable_passTo hitem (Grammar.behindDash_suffix_tail l)
    have hread := @hinner.block (l.passTo (Grammar.behindDash l)).offset _ _ _ _ hpassed
      (skipIgnorable_cons hcontent rest)
    rw [← h.alike.offset_passTo htail] at hread
    exact hread.next (fun node => ⟨l.number, [node]⟩)
      (fun node => ⟨p.shift.line l.number, [node]⟩) (fun node => rfl) ls
  · rw [if_neg hstarts, if_neg hstarts]
    have hvalue := readValue_follows hp hinner hblaming hsound h false htail
    rw [h.alike.number, h.alike.indent] at hvalue
    exact hvalue.next (fun node => ⟨l.number, [node]⟩)
      (fun node => ⟨p.shift.line l.number, [node]⟩) (fun node => rfl) ls

theorem readMapping_follows {indent : Nat} (h : Abreast p l l' rest rest') :
    p.Follows p.shift.tree (readMapping inner indent (l :: rest))
      (readMapping inner (indent + p.shift.columns) (l' :: rest')) := by
  have hitems : p.Follows (List.map p.shift.tree)
      (readItems .blockMapping (nextEntry inner indent) maxItems [] (l :: rest))
      (readItems .blockMapping (nextEntry inner (indent + p.shift.columns)) maxItems []
        (l' :: rest')) :=
    Tandem.readItems_follows (nextEntry_follows hp hinner hblaming hsound)
      (fun hgone herror => hp.late hgone (nextEntry_eq_error hblaming herror))
      (fun hgone hsome => hp.suffix hgone (nextEntry_beyond hsound hsome).1.suffix)
      (fun hgone => hp.count hgone (.inl rfl)) h.again
  unfold readMapping
  simp only [h.alike.number]
  refine hitems.bind (Rose.node ⟨.map, "", l.number, indent + 1⟩)
    (Rose.node ⟨.map, "", p.shift.line l.number, indent + p.shift.columns + 1⟩) ?_
  intro nodes
  rw [Shift.tree_node, Nat.add_right_comm]

theorem readSequence_follows {indent : Nat} (h : Abreast p l l' rest rest') :
    p.Follows p.shift.tree (readSequence inner indent (l :: rest))
      (readSequence inner (indent + p.shift.columns) (l' :: rest')) := by
  have hitems : p.Follows (List.map p.shift.tree)
      (readItems .blockSequence (nextItem inner indent) maxItems [] (l :: rest))
      (readItems .blockSequence (nextItem inner (indent + p.shift.columns)) maxItems []
        (l' :: rest')) :=
    Tandem.readItems_follows (nextItem_follows hp hinner hblaming hsound)
      (fun hgone herror => hp.late hgone (nextItem_eq_error hblaming herror))
      (fun hgone hsome => hp.suffix hgone (nextItem_beyond hsound hsome).1.suffix)
      (fun hgone => hp.count hgone (.inr rfl)) h.again
  unfold readSequence
  simp only [h.alike.number]
  refine hitems.bind (Rose.node ⟨.seq, "", l.number, indent + 1⟩)
    (Rose.node ⟨.seq, "", p.shift.line l.number, indent + p.shift.columns + 1⟩) ?_
  intro nodes
  rw [Shift.tree_node, Nat.add_right_comm]

theorem readBlock_follows {indent : Nat} {ls ls' below : List Line} {n : Line}
    (hleft : p.left ls ls') (hcontent : skipIgnorable ls = n :: below) :
    p.Follows p.shift.tree (readBlock inner indent ls)
      (readBlock inner (indent + p.shift.columns) ls') := by
  rcases hp.next hleft with hgone | ⟨hnil, -⟩ | ⟨l, l', rest, rest', hnext, hnext', h⟩
  · exact .of_gone
      (fun herror => hp.late hgone (readBlock_eq_error hblaming hsound hcontent herror))
      fun hok => hp.suffix hgone (readBlock_sound hsound hok).beyond.suffix
  · rw [hnil] at hcontent
    cases hcontent
  rw [readBlock, readBlock, hnext, hnext']
  simp only [h.alike.text, h.alike.number, h.alike.indent, ne_eq, Nat.add_right_cancel_iff]
  by_cases hlevel : ¬l.indent = indent
  · rw [if_pos hlevel, if_pos hlevel]
    exact .inr rfl
  rw [if_neg hlevel, if_neg hlevel]
  split
  · exact readSequence_follows hp hinner hblaming hsound h
  split
  · exact readMapping_follows hp hinner hblaming hsound h
  · rw [Nat.add_right_comm, hinner.inline]
    exact .of_eq h.below

omit hinner hblaming hsound in
theorem refuseDeeper_follows {ls ls' below : List Line} {n : Line} (hleft : p.left ls ls')
    (hcontent : skipIgnorable ls = n :: below) :
    p.Follows p.shift.tree (refuseDeeper ls) (refuseDeeper ls') := by
  rcases hp.next hleft with hgone | ⟨hnil, -⟩ | ⟨l, l', rest, rest', hnext, hnext', h⟩
  · exact .of_gone (fun herror => hp.late hgone (refuseDeeper_eq_error hcontent herror))
      fun hok => absurd hok (refuseDeeper_ne_ok _ _ _)
  · rw [hnil] at hcontent
    cases hcontent
  · rw [refuseDeeper, refuseDeeper, hnext, hnext']
    simp only [h.alike.number]
    exact .inr rfl

end Levels

section Levels

variable {p : Tandem (List Line)} (hp : Parallel p)

include hp

theorem following_noReaders : Following p noReaders where
  block hleft hcontent := refuseDeeper_follows hp hleft hcontent
  sequence hcontent _ _ h := refuseDeeper_follows hp h.again (skipIgnorable_cons hcontent _)
  inline _ column text := readInline_move p.shift column text

theorem following_readers : ∀ room, Following p (readers room)
  | 0 =>
    { block := fun hleft hcontent => refuseDeeper_follows hp hleft hcontent
      sequence := fun _ _ _ h => readSequence_follows hp (following_noReaders hp)
        blaming_noReaders sound_noReaders h
      inline := fun _ column text => readInline_move p.shift column text }
  | room + 1 =>
    { block := fun hleft hcontent => readBlock_follows hp (following_readers room)
        (blaming_readers room) (sound_readers room) hleft hcontent
      sequence := fun _ _ _ h => readSequence_follows hp (following_readers room)
        (blaming_readers room) (sound_readers room) h
      inline := fun _ column text => readInline_move p.shift column text }

/-! ### Documents -/

theorem rootLines_follow {ls ls' : List Line} (hleft : p.left ls ls') :
    p.gone (rootLines ls) ∨ rootLines ls = [] ∧ rootLines ls' = [] ∨
      ∃ l l' rest rest', rootLines ls = l :: rest ∧ rootLines ls' = l' :: rest' ∧
        Abreast p l l' rest rest' := by
  rcases hp.next hleft with hgone | ⟨hnil, hnil'⟩ | ⟨l, l', rest, rest', hnext, hnext', h⟩
  · exact .inl (hp.suffix hgone (rootLines_suffix ls))
  · refine .inr (.inl ?_)
    rw [rootLines, rootLines, behindMark, behindMark, hnil, hnil']
    exact ⟨rfl, rfl⟩
  have hmark : trim l'.rest = trim l.rest := by rw [trim_rest, trim_rest, h.alike.text]
  rw [rootLines, rootLines, behindMark, behindMark, hnext, hnext']
  simp only [hmark]
  split
  · rcases hp.next h.below with hgone | hnil | hnext
    · exact .inl (hp.suffix hgone (List.dropWhile_suffix _))
    · exact .inr (.inl hnil)
    · exact .inr (.inr hnext)
  · exact .inr (.inr ⟨l, l', rest, rest', skipIgnorable_next hnext, skipIgnorable_next hnext', h⟩)

theorem finish_gone {root : Rose Label} {after : List Line} {r : ReadResult}
    (hgone : p.gone after) : p.ended.Follows p.shift.tree (finish root after) r :=
  .of_gone (fun h => hp.late hgone (finish_eq_error h)) fun _ => ⟨after, hgone⟩

theorem finish_follows {root : Rose Label} {after after' : List Line}
    (hleft : p.left after after') :
    p.ended.Follows p.shift.tree (finish root after) (finish (p.shift.tree root) after') := by
  rcases hp.next hleft with hgone | ⟨hnil, hnil'⟩ | ⟨l, l', rest, rest', hnext, hnext', h⟩
  · exact finish_gone hp hgone
  · rw [finish, finish, hnil, hnil']
    exact .inr ⟨[], rfl, trivial⟩
  have hmark : trim l'.rest = trim l.rest := by rw [trim_rest, trim_rest, h.alike.text]
  rw [finish, finish, hnext, hnext']
  simp only [hmark, h.alike.number]
  split
  · exact .inr ⟨rest', rfl, trivial⟩
  · exact .inr rfl

/-- **Documents that go together are read in step**: the second one has the same tree as the first,
or the same error, at its other place.  The root of a document without content stays where it is. -/
theorem readRoot_follows {ls ls' : List Line} (hleft : p.left ls ls') :
    p.ended.Follows (if rootLines ls = [] then id else p.shift.tree) (readRoot ls)
      (readRoot ls') := by
  rcases rootLines_follow hp hleft with
    hgone | ⟨hnil, hnil'⟩ | ⟨l, l', rest, rest', hroot, hroot', h⟩
  · exact .of_gone (fun herror => hp.late hgone (readRoot_eq_error herror)) fun _ => ⟨_, hgone⟩
  · rw [readRoot_eq, readRoot_eq, hnil, hnil']
    exact .inr ⟨[], rfl, trivial⟩
  have hcontent : l.ignorable = false := not_ignorable_of_skip hroot
  have hblock := @(following_readers hp (maxDepth + 1)).block l.indent _ _ _ _ h.again
    (skipIgnorable_cons hcontent rest)
  rw [readRoot_eq, readRoot_eq, hroot, hroot', if_neg (List.cons_ne_nil l rest)]
  simp only [h.alike.indent]
  rcases hread : (readers (maxDepth + 1)).block l.indent (l :: rest) with e | ⟨root, after⟩
  all_goals rw [hread] at hblock
  · exact hblock.imp id fun h => by rw [h]; rfl
  · rcases hblock with hgone | ⟨after', hread', hafter⟩
    · exact finish_gone hp hgone
    · rw [hread']
      exact finish_follows hp hafter

/-- Runs that share everything end alike. -/
theorem readRoot_together (hlate : ∀ e, ¬p.late e) (hgone : ∀ ls, ¬p.gone ls) {ls ls' : List Line}
    (hleft : p.left ls ls') :
    (readRoot ls').map (·.1) =
      p.shift.outcome (if rootLines ls = [] then id else p.shift.tree)
        ((readRoot ls).map (·.1)) := by
  have hroot := readRoot_follows hp hleft
  rcases hread : readRoot ls with e | ⟨node, after⟩
  all_goals rw [hread] at hroot
  · rcases hroot with h | hroot
    · exact absurd h (hlate e)
    · rw [hroot]
      rfl
  · rcases hroot with ⟨_, h⟩ | ⟨after', hroot, -⟩
    · exact absurd h (hgone _)
    · rw [hroot]
      rfl

end Levels

end YamlDecode.Document
