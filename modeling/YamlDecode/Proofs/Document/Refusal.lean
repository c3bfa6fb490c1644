/-
Which line an error is at.

An error is at a line that was being read when it arose, and that line has content: a reader
stops at the next line with content, and is never asked for a block where there is none.  So
the line of an error is one of those that were left to read.

An error about the number of items is at the line of the last item, though by then more lines
may have been read.  Each item takes up a line, so where lines are fewer than the items that a
collection may have there is no such error, and then an error is at the last line that was
looked at.

Both facts are `Blames`, and the induction is the one of `Sound`, on how deep readers may go:
what was read before the error is known from there.
-/
import YamlDecode.Proofs.Document.Extent
import YamlDecode.Proofs.Document.Header
import YamlDecode.Proofs.Document.Soundness

namespace YamlDecode

theorem bind_eq_error {ε α β : Type} {x : Except ε α} {f : α → Except ε β} {e : ε}
    (h : (x >>= f) = .error e) : x = .error e ∨ ∃ a, x = .ok a ∧ f a = .error e := by
  cases x with
  | error e' =>
      cases h
      exact .inl rfl
  | ok a => exact .inr ⟨a, rfl, h⟩

theorem map_eq_error {ε α β : Type} {x : Except ε α} {f : α → β} {e : ε}
    (h : x.map f = .error e) : x = .error e := by
  cases x with
  | error e' => exact congrArg _ (Except.error.inj h)
  | ok a => cases h

namespace Document

open YamlDecode.Text

/-- The fault is that a collection takes up too many lines. -/
def Fault.CountsLines (f : Fault) : Prop :=
  f = .tooManyItems .blockMapping ∨ f = .tooManyItems .blockSequence

/-- The error is at that line, and arose on it. -/
structure AtLine (line : Nat) (e : ParseError) : Prop where
  line : e.line = line
  fault : ¬e.fault.CountsLines

/-- The error is at one of the lines, which has content, and if it is about their number they are
more than the items of a collection. -/
structure Blames (ls : List Line) (e : ParseError) : Prop where
  content : ∃ l ∈ ls, l.ignorable = false ∧ e.line = l.number
  count : e.fault.CountsLines → maxItems < ls.length

namespace Blames

variable {ls ls' rest : List Line} {l : Line} {e : ParseError}

theorem of_atLine (h : AtLine l.number e) (hnext : skipIgnorable ls = l :: rest) : Blames ls e :=
  ⟨⟨l, (skipIgnorable_suffix hnext).subset List.mem_cons_self, not_ignorable_of_skip hnext,
    h.line⟩, fun hcounts => absurd hcounts h.fault⟩

theorem mono (h : Blames ls e) (hls : ls <:+ ls') : Blames ls' e := by
  obtain ⟨l, hl, hcontent, hline⟩ := h.content
  exact ⟨⟨l, hls.subset hl, hcontent, hline⟩,
    fun hcounts => Nat.lt_of_lt_of_le (h.count hcounts) hls.length_le⟩

/-- What is left of a line blames that line. -/
theorem of_passTo {tail : List Char} (h : Blames (l.passTo tail :: rest) e)
    (hnext : skipIgnorable ls = l :: rest) : Blames ls e := by
  have hline : Blames (l :: rest) e := by
    obtain ⟨n, hn, hcontent, hline⟩ := h.content
    refine ⟨?_, h.count⟩
    rcases List.mem_cons.1 hn with rfl | hn
    · exact ⟨l, List.mem_cons_self, not_ignorable_of_skip hnext, hline⟩
    · exact ⟨n, List.mem_cons_of_mem l hn, hcontent, hline⟩
  exact hline.mono (skipIgnorable_suffix hnext)

end Blames

/-! ### Loops -/

/-- An error of the loop is one of a step, or there were too many steps. -/
theorem readItems_eq_error {σ : Type} {c : Collection}
    {next : σ → Except ParseError (Option (Item × σ))} (inv : Nat → σ → Prop)
    {blames : ParseError → Prop}
    (error : ∀ {room s e}, inv room s → next s = .error e → blames e)
    (full : ∀ {s item s'}, inv 0 s → next s = .ok (some (item, s')) →
      blames ⟨item.line, .tooManyItems c⟩)
    (step : ∀ {room s item s'}, inv (room + 1) s → next s = .ok (some (item, s')) →
      inv room s') {room : Nat} :
    ∀ {done : List (Rose Label)} {s : σ} {e : ParseError}, inv room s →
      readItems c next room done s = .error e → blames e := by
  induction room with
  | zero =>
      intro done s e hinv h
      unfold readItems at h
      split at h
      · next herror =>
        cases h
        exact error hinv herror
      · cases h
      · next hitem =>
        cases h
        exact full hinv hitem
  | succ room ih =>
      intro done s e hinv h
      unfold readItems at h
      split at h
      · next herror =>
        cases h
        exact error hinv herror
      · cases h
      · next hitem => exact ih (step hinv hitem) h

/-! ### Values on one line -/

theorem readKey_eq_error {line column : Nat} {text : List Char} {e : ParseError}
    (h : readKey line column text = .error e) : AtLine line e := by
  unfold readKey at h
  simp only at h
  split at h
  · cases h
    exact ⟨rfl, by nofun⟩
  split at h
  · split at h
    · cases h
      exact ⟨rfl, by nofun⟩
    · split at h
      · cases h
      · cases h
        exact ⟨rfl, by nofun⟩
  · cases h

theorem flowEntry_eq_error {value : Nat → List Char → Except ParseError (Rose Label)}
    {line column : Nat} {p : Scanner.Piece} {e : ParseError}
    (hvalue : ∀ {column text e}, value column text = .error e → AtLine line e)
    (h : flowEntry value line column p = .error e) : AtLine line e := by
  unfold flowEntry at h
  simp only at h
  split at h
  · cases h
    exact ⟨rfl, by nofun⟩
  rcases bind_eq_error h with hkey | ⟨key, -, h⟩
  · exact readKey_eq_error hkey
  rcases bind_eq_error h with hnode | ⟨node, -, h⟩
  · exact hvalue hnode
  · cases h

theorem flowEntry_line {value : Nat → List Char → Except ParseError (Rose Label)}
    {line column : Nat} {p : Scanner.Piece} {item : Item}
    (h : flowEntry value line column p = .ok item) : item.line = line := by
  unfold flowEntry at h
  simp only at h
  split at h
  · cases h
  · obtain ⟨key, -, h⟩ := exists_of_bind_eq_ok h
    obtain ⟨node, -, h⟩ := exists_of_bind_eq_ok h
    cases h
    rfl

theorem flowItem_eq_error {value : Nat → List Char → Except ParseError (Rose Label)}
    {line column : Nat} {p : Scanner.Piece} {e : ParseError}
    (hvalue : ∀ {column text e}, value column text = .error e → AtLine line e)
    (h : flowItem value line column p = .error e) : AtLine line e := by
  unfold flowItem at h
  rcases bind_eq_error h with hnode | ⟨node, -, h⟩
  · exact hvalue hnode
  · cases h

theorem flowItem_line {value : Nat → List Char → Except ParseError (Rose Label)}
    {line column : Nat} {p : Scanner.Piece} {item : Item}
    (h : flowItem value line column p = .ok item) : item.line = line := by
  unfold flowItem at h
  obtain ⟨node, -, h⟩ := exists_of_bind_eq_ok h
  cases h
  rfl

/-- The items of a flow collection are all on its line. -/
theorem flowItems_eq_error {c : Collection} {item : Scanner.Piece → Except ParseError Item}
    {line : Nat} {inner : List Char} {e : ParseError}
    (hflow : c = .flowMapping ∨ c = .flowSequence)
    (hline : ∀ {p i}, item p = .ok i → i.line = line)
    (hitem : ∀ {p e}, item p = .error e → AtLine line e)
    (h : flowItems c item inner = .error e) : AtLine line e := by
  rw [flowItems_eq_readItems] at h
  have hnext : ∀ {ps e}, nextFlowItem item ps = .error e → AtLine line e := by
    intro ps e h
    unfold nextFlowItem at h
    split at h
    · cases h
    · exact hitem (map_eq_error h)
  have hsome : ∀ {ps i rest}, nextFlowItem item ps = .ok (some (i, rest)) → i.line = line := by
    intro ps i rest h
    unfold nextFlowItem at h
    split at h
    · cases h
    · obtain ⟨i', hi, hpair⟩ := exists_of_map_eq_ok h
      cases hpair
      exact hline hi
  refine readItems_eq_error (fun _ _ => True) (fun _ => hnext) ?_ (fun _ _ => trivial)
    trivial (map_eq_error h)
  intro ps i rest _ hfirst
  rcases hflow with rfl | rfl
  · exact ⟨hsome hfirst, by nofun⟩
  · exact ⟨hsome hfirst, by nofun⟩

theorem readInline_eq_error {room line : Nat} : ∀ {column : Nat} {text : List Char}
    {e : ParseError}, readInline room line column text = .error e → AtLine line e := by
  induction room with
  | zero =>
      intro column text e h
      cases h
      exact ⟨rfl, by nofun⟩
  | succ room ih =>
      intro column text e h
      unfold readInline at h
      simp only at h
      split at h
      · cases h
        exact ⟨rfl, by nofun⟩
      split at h
      · split at h
        · cases h
          exact ⟨rfl, by nofun⟩
        · split at h
          · cases h
          · cases h
            exact ⟨rfl, by nofun⟩
      · unfold readUnquoted at h
        split at h
        · split at h
          · cases h
            exact ⟨rfl, by nofun⟩
          rcases bind_eq_error h with hnodes | ⟨nodes, -, h⟩
          · exact flowItems_eq_error (.inl rfl) flowEntry_line (flowEntry_eq_error ih) hnodes
          · cases h
        · split at h
          · cases h
            exact ⟨rfl, by nofun⟩
          rcases bind_eq_error h with hnodes | ⟨nodes, -, h⟩
          · exact flowItems_eq_error (.inr rfl) flowItem_line (flowItem_eq_error ih) hnodes
          · cases h
        · cases h

/-! ### Blocks -/

theorem readMarks_eq_error {text marks : List Char} {header : Header} {fault : Fault}
    (h : Header.readMarks text header marks = .error fault) : fault = .blockHeader text := by
  rw [Header.readMarks_eq] at h
  split at h
  · cases h
  · exact (Except.error.inj h).symm

theorem readHeader_eq_error {text : List Char} {fault : Fault}
    (h : Header.read text = .error fault) : fault = .blockHeader text := by
  unfold Header.read at h
  split at h
  · exact readMarks_eq_error (map_eq_error h)
  · exact readMarks_eq_error (map_eq_error h)
  · cases h

/-- The errors of one level blame the lines it is given. -/
structure Blaming (inner : Readers) : Prop where
  block : ∀ {indent : Nat} {ls rest : List Line} {l : Line} {e : ParseError},
    skipIgnorable ls = l :: rest → inner.block indent ls = .error e → Blames ls e
  sequence : ∀ {indent : Nat} {ls rest : List Line} {l : Line} {e : ParseError},
    skipIgnorable ls = l :: rest → inner.sequence indent ls = .error e → Blames ls e
  inline : ∀ {line column : Nat} {text : List Char} {e : ParseError},
    inner.inline line column text = .error e → AtLine line e

section Levels

variable {inner : Readers}

/-- An error of a value is at its line, or at those below. -/
theorem readValue_eq_error (hinner : Blaming inner) {compact : Bool} {line indent column : Nat}
    {text : List Char} {ls : List Line} {e : ParseError}
    (h : readValue inner compact line indent column text ls = .error e) :
    AtLine line e ∨ Blames ls e := by
  unfold readValue at h
  split at h
  · split at h
    · cases h
    · next next rest hnext =>
      have hbelow := skipIgnorable_suffix hnext
      split at h
      · exact .inr ((hinner.block (skipIgnorable_next hnext) h).mono hbelow)
      split at h
      · exact .inr ((hinner.sequence (skipIgnorable_next hnext) h).mono hbelow)
      · cases h
  · split at h
    · next fault hfault =>
      cases h
      cases readHeader_eq_error hfault
      exact .inl ⟨rfl, by nofun⟩
    · cases h
    · exact .inl (hinner.inline (map_eq_error h))

theorem nextEntry_eq_error (hinner : Blaming inner) {indent : Nat} {ls : List Line}
    {e : ParseError} (h : nextEntry inner indent ls = .error e) : Blames ls e := by
  unfold nextEntry at h
  split at h
  · cases h
  next l rest hnext =>
  split at h
  · cases h
  split at h
  · cases h
    exact .of_atLine ⟨rfl, by nofun⟩ hnext
  split at h
  · cases h
    exact .of_atLine ⟨rfl, by nofun⟩ hnext
  split at h
  · cases h
    exact .of_atLine ⟨rfl, by nofun⟩ hnext
  rcases bind_eq_error h with hkey | ⟨key, -, h⟩
  · exact .of_atLine (readKey_eq_error hkey) hnext
  rcases bind_eq_error h with hvalue | ⟨read, -, h⟩
  · rcases readValue_eq_error hinner hvalue with hline | hbelow
    · exact .of_atLine hline hnext
    · exact hbelow.mono ((List.suffix_cons l rest).trans (skipIgnorable_suffix hnext))
  · cases h

theorem nextItem_eq_error (hinner : Blaming inner) {indent : Nat} {ls : List Line}
    {e : ParseError} (h : nextItem inner indent ls = .error e) : Blames ls e := by
  unfold nextItem at h
  split at h
  · cases h
  next l rest hnext =>
  split at h
  · cases h
  split at h
  · cases h
    exact .of_atLine ⟨rfl, by nofun⟩ hnext
  split at h
  · cases h
  next hitem =>
  have hitem : isItem l.text = true := by simpa using hitem
  simp only at h
  split at h
  · rcases bind_eq_error h with hblock | ⟨read, -, h⟩
    · have hcontent := Line.ignorable_passTo hitem (Grammar.behindDash_suffix_tail l)
      exact (hinner.block (skipIgnorable_cons hcontent rest) hblock).of_passTo hnext
    · cases h
  · rcases bind_eq_error h with hvalue | ⟨read, -, h⟩
    · rcases readValue_eq_error hinner hvalue with hline | hbelow
      · exact .of_atLine hline hnext
      · exact hbelow.mono ((List.suffix_cons l rest).trans (skipIgnorable_suffix hnext))
    · cases h

theorem nextEntry_beyond (hinner : Sound inner) {indent : Nat} {ls after : List Line} {item : Item}
    (h : nextEntry inner indent ls = .ok (some (item, after))) :
    Grammar.Beyond ls after ∧ ∃ l rest, skipIgnorable ls = l :: rest ∧ item.line = l.number := by
  obtain ⟨l, rest, before, behind, key, node, hnext, -, -, -, hvalue, rfl⟩ := nextEntry_eq_some h
  exact ⟨⟨l, rest, hnext, (readValue_sound hinner hvalue).suffix⟩, l, rest, hnext, rfl⟩

theorem nextItem_beyond (hinner : Sound inner) {indent : Nat} {ls after : List Line} {item : Item}
    (h : nextItem inner indent ls = .ok (some (item, after))) :
    Grammar.Beyond ls after ∧ ∃ l rest, skipIgnorable ls = l :: rest ∧ item.line = l.number := by
  obtain ⟨l, rest, node, hnext, -, hitem, rfl, ⟨-, hblock⟩ | ⟨-, hvalue⟩⟩ := nextItem_eq_some h
  · have hcontent := Line.ignorable_passTo hitem (Grammar.behindDash_suffix_tail l)
    have hbelow := (hinner.block hblock).beyond.below_next (skipIgnorable_cons hcontent rest)
    exact ⟨⟨l, rest, hnext, hbelow⟩, l, rest, hnext, rfl⟩
  · exact ⟨⟨l, rest, hnext, (readValue_sound hinner hvalue).suffix⟩, l, rest, hnext, rfl⟩

/-- The loop over the items of a block.  Lines left and items that there is still room for go down
together, a line at least for each item. -/
theorem readItems_blames {c : Collection}
    {next : List Line → Except ParseError (Option (Item × List Line))}
    (error : ∀ {ls e}, next ls = .error e → Blames ls e)
    (beyond : ∀ {ls item after}, next ls = .ok (some (item, after)) →
      Grammar.Beyond ls after ∧ ∃ l rest, skipIgnorable ls = l :: rest ∧ item.line = l.number)
    {done : List (Rose Label)} {ls : List Line} {e : ParseError}
    (h : readItems c next maxItems done ls = .error e) : Blames ls e := by
  refine readItems_eq_error
    (fun room left => left <:+ ls ∧ maxItems + left.length ≤ room + ls.length)
    ?_ ?_ ?_ ⟨List.suffix_refl ls, Nat.le_refl _⟩ h
  · intro room left e hinv h
    exact (error h).mono hinv.1
  · intro left item after hinv h
    obtain ⟨hbeyond, l, rest, hnext, hline⟩ := beyond h
    have hlength := hbeyond.length_lt
    exact ⟨⟨l, (skipIgnorable_suffix hnext |>.trans hinv.1).subset List.mem_cons_self,
      not_ignorable_of_skip hnext, hline⟩, fun _ => by omega⟩
  · intro room left item after hinv h
    have hbeyond := (beyond h).1
    have hlength := hbeyond.length_lt
    exact ⟨hbeyond.suffix.trans hinv.1, by omega⟩

theorem readMapping_eq_error (hinner : Blaming inner) (hsound : Sound inner) {indent : Nat}
    {ls : List Line} {e : ParseError} (h : readMapping inner indent ls = .error e) :
    Blames ls e := by
  unfold readMapping at h
  rcases bind_eq_error h with hitems | ⟨read, -, h⟩
  · exact readItems_blames (nextEntry_eq_error hinner) (nextEntry_beyond hsound) hitems
  · cases h

theorem readSequence_eq_error (hinner : Blaming inner) (hsound : Sound inner) {indent : Nat}
    {ls : List Line} {e : ParseError} (h : readSequence inner indent ls = .error e) :
    Blames ls e := by
  unfold readSequence at h
  rcases bind_eq_error h with hitems | ⟨read, -, h⟩
  · exact readItems_blames (nextItem_eq_error hinner) (nextItem_beyond hsound) hitems
  · cases h

theorem readBlock_eq_error (hinner : Blaming inner) (hsound : Sound inner) {indent : Nat}
    {ls rest : List Line} {l : Line} {e : ParseError} (hnext : skipIgnorable ls = l :: rest)
    (h : readBlock inner indent ls = .error e) : Blames ls e := by
  have hbelow := skipIgnorable_suffix hnext
  unfold readBlock at h
  rw [hnext] at h
  simp only at h
  split at h
  · cases h
    exact .of_atLine ⟨rfl, by nofun⟩ hnext
  split at h
  · exact (readSequence_eq_error hinner hsound h).mono hbelow
  split at h
  · exact (readMapping_eq_error hinner hsound h).mono hbelow
  · exact .of_atLine (hinner.inline (map_eq_error h)) hnext

theorem refuseDeeper_eq_error {ls rest : List Line} {l : Line} {e : ParseError}
    (hnext : skipIgnorable ls = l :: rest) (h : refuseDeeper ls = .error e) : Blames ls e := by
  unfold refuseDeeper at h
  rw [hnext] at h
  cases h
  exact .of_atLine ⟨rfl, by nofun⟩ hnext

end Levels

theorem blaming_noReaders : Blaming noReaders where
  block hnext h := refuseDeeper_eq_error hnext h
  sequence hnext h := refuseDeeper_eq_error hnext h
  inline h := readInline_eq_error h

theorem blaming_readers : ∀ room, Blaming (readers room)
  | 0 =>
    { block := fun hnext h => refuseDeeper_eq_error hnext h
      sequence := fun _ h => readSequence_eq_error blaming_noReaders sound_noReaders h
      inline := fun h => readInline_eq_error h }
  | room + 1 =>
    { block := fun hnext h =>
        readBlock_eq_error (blaming_readers room) (sound_readers room) hnext h
      sequence := fun _ h => readSequence_eq_error (blaming_readers room) (sound_readers room) h
      inline := fun h => readInline_eq_error h }

/-! ### Documents -/

theorem finish_eq_error {root : Rose Label} {after : List Line} {e : ParseError}
    (h : finish root after = .error e) : Blames after e := by
  unfold finish at h
  split at h
  · cases h
  next l rest hnext =>
  split at h
  · cases h
  · cases h
    exact .of_atLine ⟨rfl, by nofun⟩ hnext

theorem readRoot_eq_error {ls : List Line} {e : ParseError} (h : readRoot ls = .error e) :
    Blames (rootLines ls) e := by
  rw [readRoot_eq] at h
  split at h
  · cases h
  next l rest hlines =>
  have hfirst : skipIgnorable (l :: rest) = l :: rest := skipIgnorable_next hlines
  rw [hlines]
  rcases bind_eq_error h with hblock | ⟨⟨root, after⟩, hblock, hfinish⟩
  · exact (blaming_readers _).block hfirst hblock
  · exact (finish_eq_error hfinish).mono ((sound_readers _).block hblock).beyond.suffix

/-- A text is refused for the number of its lines, or for one of them. -/
theorem read_eq_error {text : List Char} {e : ParseError} (h : Document.read text = .error e) :
    maxLines < (linesOf text).length ∧ e = ⟨maxLines + 1, .tooManyLines⟩ ∨
      Blames (linesOf text) e := by
  unfold Document.read at h
  simp only at h
  split at h
  · next hmany => exact .inl ⟨hmany, (Except.error.inj h).symm⟩
  · exact .inr ((readRoot_eq_error (map_eq_error h)).mono (rootLines_suffix _))

theorem length_linesOf (text : List Char) : (linesOf text).length = (lines text).length := by
  rw [linesOf, List.length_map, List.length_zipIdx]

theorem read_of_length_le {text : List Char} (h : (lines text).length ≤ maxLines) :
    Document.read text = (readRoot (linesOf text)).map (·.1) := by
  refine if_neg ?_
  rw [length_linesOf]
  exact Nat.not_lt.2 h

theorem number_of_mem {text : List Char} {l : Line} (h : l ∈ linesOf text) :
    1 ≤ l.number ∧ l.number ≤ (lines text).length := by
  obtain ⟨n, hn⟩ := List.mem_iff_getElem?.1 h
  obtain ⟨hnumber, -, hline⟩ := getElem?_linesOf hn
  have hlt : n < (lines text).length := (List.getElem?_eq_some_iff.1 hline).1
  omega

/-- An error is at a line of the text. -/
theorem read_error_line {text : List Char} {e : ParseError} (h : Document.read text = .error e) :
    1 ≤ e.line ∧ e.line ≤ (lines text).length := by
  rcases read_eq_error h with ⟨hmany, rfl⟩ | hblames
  · rw [length_linesOf] at hmany
    exact ⟨Nat.succ_le_succ (Nat.zero_le _), hmany⟩
  · obtain ⟨l, hl, -, hline⟩ := hblames.content
    rw [hline]
    exact number_of_mem hl

end Document

end YamlDecode
