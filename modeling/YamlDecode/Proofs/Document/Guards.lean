/-
Faults that no document has.

Some checks of a reader only guard it against its callers.  A block needs a line to start on, and has
to start at the indentation it is read at, but whoever has one read has just looked at the next line
with content: a value below its key, the root, and an item behind its dash, where the line looked at
is what is left of the dash's own.  A quoted text has to start with a quote, and is read only where
one was seen.  And the items of a flow collection are counted, though a piece with content takes up
two bytes, with the comma behind it, of a value that is not read if it is too long: bytes run out
before items do.

`Unguarded` says of an outcome that it is none of these faults.  It is kept by every reader, and for
blocks the induction is on how deep readers may go: what a level needs of the level below is
`Unguarding`, which asks of no block but one that starts where it should.

A message tells as much.  It starts with a text of its own for each fault, up to what it quotes or
counts, and no other fault's message starts like a guard's.
-/
import YamlDecode.Proofs.Document.Order
import YamlDecode.Proofs.Document.Refusal

namespace YamlDecode

namespace Document

open YamlDecode.Text

/-- The fault is that of a check which only guards a reader against its callers. -/
def Fault.isGuard : Fault → Bool
  | .missingContent => true
  | .unexpectedIndent _ _ => true
  | .tooManyItems .flowMapping => true
  | .tooManyItems .flowSequence => true
  | .quoted _ .missingQuote => true
  | _ => false

/-- The outcome is not the fault of a guard. -/
def Unguarded {α : Type} (x : Except ParseError α) : Prop :=
  ∀ e, x = .error e → e.fault.isGuard = false

section Outcome

variable {α β : Type}

theorem unguarded_ok (a : α) : Unguarded (.ok a) := nofun

theorem unguarded_error {line : Nat} {fault : Fault} (h : fault.isGuard = false) :
    Unguarded (.error ⟨line, fault⟩ : Except ParseError α) := by
  rintro e ⟨⟩
  exact h

theorem Unguarded.bind {x : Except ParseError α} {f : α → Except ParseError β} (hx : Unguarded x)
    (hf : ∀ a, Unguarded (f a)) : Unguarded (x >>= f) := by
  intro e h
  rcases bind_eq_error h with hfirst | ⟨a, -, hrest⟩
  · exact hx e hfirst
  · exact hf a e hrest

theorem Unguarded.map {x : Except ParseError α} (hx : Unguarded x) (f : α → β) :
    Unguarded (x.map f) := fun e h => hx e (map_eq_error h)

end Outcome

/-! ### Values on one line -/

theorem unguarded_quoted {α : Type} {line : Nat} {text : List Char} {fault : Quoted.Fault}
    (hopens : Quoted.opens text = true) (h : Quoted.read text = .error fault) :
    Unguarded (.error ⟨line, .quoted text fault⟩ : Except ParseError α) := by
  have hfault := Quoted.read_eq_error hopens h
  refine unguarded_error ?_
  cases fault with
  | missingQuote => exact absurd rfl hfault
  | unterminated | unknownEscape | invalidEscape => rfl

theorem unguarded_readKey (line column : Nat) (text : List Char) :
    Unguarded (readKey line column text) := by
  unfold readKey
  simp only
  split
  · exact unguarded_error rfl
  split
  · next hopens =>
    split
    · next fault hread => exact unguarded_quoted hopens hread
    · split
      · exact unguarded_ok _
      · exact unguarded_error rfl
  · exact unguarded_ok _

theorem unguarded_flowEntry {value : Nat → List Char → Except ParseError (Rose Label)}
    (hvalue : ∀ column text, Unguarded (value column text)) (line column : Nat)
    (p : Scanner.Piece) : Unguarded (flowEntry value line column p) := by
  unfold flowEntry
  simp only
  split
  · exact unguarded_error rfl
  · refine (unguarded_readKey _ _ _).bind fun _ => ?_
    exact (hvalue _ _).bind fun _ => unguarded_ok _

theorem unguarded_flowItem {value : Nat → List Char → Except ParseError (Rose Label)}
    (hvalue : ∀ column text, Unguarded (value column text)) (line column : Nat)
    (p : Scanner.Piece) : Unguarded (flowItem value line column p) :=
  (hvalue _ _).bind fun _ => unguarded_ok _

/-- A loop over items does not guard, if what it says of too many of them does not, or if there are
never too many. -/
theorem unguarded_readItems {σ : Type} {c : Collection}
    {next : σ → Except ParseError (Option (Item × σ))} (hnext : ∀ s, Unguarded (next s))
    (inv : Nat → σ → Prop)
    (full : ∀ {s item s'}, inv 0 s → next s = .ok (some (item, s')) →
      (Fault.tooManyItems c).isGuard = false)
    (step : ∀ {room s item s'}, inv (room + 1) s → next s = .ok (some (item, s')) →
      inv room s') {room : Nat} {s : σ} (h : inv room s) (done : List (Rose Label)) :
    Unguarded (readItems c next room done s) :=
  fun _ => readItems_eq_error inv (fun _ => hnext _ _) full step h

/-- The pieces with content go down by the one that is next. -/
theorem filter_of_nextPiece {ps rest : List Scanner.Piece} {p : Scanner.Piece}
    (h : nextPiece ps = some (p, rest)) :
    (ps.filter fun q => !allBlank q.text) = p :: rest.filter fun q => !allBlank q.text := by
  induction ps with
  | nil => cases h
  | cons q ps ih =>
      by_cases hblank : allBlank q.text = true
      · rw [nextPiece_blank hblank] at h
        rw [List.filter_cons_of_neg (by simp [hblank]), ih h]
      · have hcontent : allBlank q.text = false := by simpa using hblank
        rw [nextPiece_content hcontent] at h
        cases h
        rw [List.filter_cons_of_pos (by simp [hcontent])]

/-- Pieces that are not empty take up two bytes each, but for a mark behind the last. -/
theorem Lined.length_le {a b : Nat} {ps : List Scanner.Piece} (h : Lined a b ps)
    (hne : ∀ p ∈ ps, 0 < width p.text) : 2 * ps.length ≤ b + 1 - a := by
  induction ps generalizing a with
  | nil => exact Nat.zero_le _
  | cons p ps ih =>
      obtain ⟨hfirst, hrest⟩ := List.pairwise_cons.1 h.ordered
      obtain ⟨hfrom, hto⟩ := h.within p List.mem_cons_self
      have hwidth := hne p List.mem_cons_self
      have hbehind : Lined (p.offset + width p.text + 1) b ps :=
        ⟨hrest, fun q hq => ⟨hfirst q hq, (h.within q (List.mem_cons_of_mem p hq)).2⟩⟩
      have hlength := ih hbehind fun q hq => hne q (List.mem_cons_of_mem p hq)
      rw [List.length_cons]
      omega

/-- A value that is not too long has not too many items. -/
theorem length_contentPieces_le {inner : List Char} (h : width inner ≤ maxInlineWidth) :
    (Grammar.contentPieces inner).length ≤ maxItems := by
  have hne : ∀ p ∈ Grammar.contentPieces inner, 0 < width p.text := by
    intro p hp
    have hcontent := (List.mem_filter.1 hp).2
    have htext : p.text ≠ [] := by
      intro hnil
      rw [hnil] at hcontent
      cases hcontent
    exact Nat.lt_of_lt_of_le (List.length_pos_iff.2 htext) (length_le_width p.text)
  have hlength := (lined_contentPieces inner).length_le hne
  unfold maxInlineWidth at h
  unfold maxItems
  omega

theorem unguarded_flowItems (c : Collection) {item : Scanner.Piece → Except ParseError Item}
    (hitem : ∀ p, Unguarded (item p)) {inner : List Char} (h : width inner ≤ maxInlineWidth) :
    Unguarded (flowItems c item inner) := by
  rw [flowItems_eq_readItems]
  have hsome : ∀ {ps rest : List Scanner.Piece} {i : Item},
      nextFlowItem item ps = .ok (some (i, rest)) → ∃ p, nextPiece ps = some (p, rest) := by
    intro ps rest i hnext
    unfold nextFlowItem at hnext
    split at hnext
    · cases hnext
    · next hpiece =>
      obtain ⟨i', -, hpair⟩ := exists_of_map_eq_ok hnext
      cases hpair
      exact ⟨_, hpiece⟩
  refine (unguarded_readItems (fun ps => ?_)
    (fun room ps => (ps.filter fun p => !allBlank p.text).length ≤ room) (fun hfull hnext => ?_)
    (fun hroom hnext => ?_) (length_contentPieces_le h) []).map _
  · unfold nextFlowItem
    split
    · exact unguarded_ok _
    · exact (hitem _).map _
  · obtain ⟨p, hpiece⟩ := hsome hnext
    rw [filter_of_nextPiece hpiece] at hfull
    cases hfull
  · obtain ⟨p, hpiece⟩ := hsome hnext
    rw [filter_of_nextPiece hpiece, List.length_cons] at hroom
    exact Nat.le_of_succ_le_succ hroom

/-- What stands between the brackets of a value that is not too long is not too long either. -/
theorem width_inner_le {opening closing : Char} {text tail inner : List Char}
    (hwidth : width text ≤ maxInlineWidth) (hcontent : stripComment (trim text) = opening :: tail)
    (hinner : beforeLast closing tail = some inner) : width inner ≤ maxInlineWidth := by
  rw [beforeLast_eq_some hinner] at hcontent
  have hbrackets := width_of_brackets hcontent
  have htrim := width_trim_le text
  omega

theorem unguarded_readInline {line : Nat} (room : Nat) : ∀ (column : Nat) (text : List Char),
    Unguarded (readInline room line column text) := by
  induction room with
  | zero => exact fun _ _ => unguarded_error rfl
  | succ room ih =>
      intro column text
      unfold readInline
      simp only
      split
      · exact unguarded_error rfl
      next hwidth =>
      have hwidth : width text ≤ maxInlineWidth := Nat.not_lt.1 hwidth
      split
      · next hopens =>
        split
        · next fault hread => exact unguarded_quoted hopens hread
        · split
          · exact unguarded_ok _
          · exact unguarded_error rfl
      · unfold readUnquoted
        split
        · next tail hcontent =>
          split
          · exact unguarded_error rfl
          next inner hinner =>
          exact (unguarded_flowItems _ (unguarded_flowEntry ih line column)
            (width_inner_le hwidth hcontent hinner)).bind fun _ => unguarded_ok _
        · next tail hcontent =>
          split
          · exact unguarded_error rfl
          next inner hinner =>
          exact (unguarded_flowItems _ (unguarded_flowItem ih line column)
            (width_inner_le hwidth hcontent hinner)).bind fun _ => unguarded_ok _
        · exact unguarded_ok _

/-! ### Blocks -/

/-- What is left of a line without its blanks is indented by what has been passed. -/
theorem Line.indent_passTo_trimStart (l : Line) (cs : List Char) :
    (l.passTo (trimStart cs)).indent = (l.passTo (trimStart cs)).offset := by
  have hspaces := takeWhile_space_eq_nil (head?_ne_space (trimStart_trimStart cs))
  show _ + ((trimStart cs).takeWhile (· == ' ')).length = _
  rw [hspaces]
  rfl

/-- The readers of one level do not guard, where they are asked for a block that starts on the next
line with content. -/
structure Unguarding (inner : Readers) : Prop where
  block : ∀ {ls rest : List Line} {l : Line}, skipIgnorable ls = l :: rest →
    Unguarded (inner.block l.indent ls)
  sequence : ∀ {ls rest : List Line} {l : Line} (indent : Nat), skipIgnorable ls = l :: rest →
    Unguarded (inner.sequence indent ls)
  inline : ∀ line column text, Unguarded (inner.inline line column text)

section Levels

variable {inner : Readers} (hinner : Unguarding inner)

include hinner

theorem Unguarding.readValue (compact : Bool) (line indent column : Nat) (text : List Char)
    (ls : List Line) : Unguarded (readValue inner compact line indent column text ls) := by
  unfold Document.readValue
  split
  · split
    · exact unguarded_ok _
    next next rest hnext =>
    have hfirst := skipIgnorable_next hnext
    split
    · exact hinner.block hfirst
    split
    · exact hinner.sequence _ hfirst
    · exact unguarded_ok _
  · split
    · next fault hfault =>
      rw [readHeader_eq_error hfault]
      exact unguarded_error rfl
    · exact unguarded_ok _
    · exact (hinner.inline _ _ _).map _

theorem Unguarding.nextEntry (indent : Nat) (ls : List Line) :
    Unguarded (nextEntry inner indent ls) := by
  unfold Document.nextEntry
  split
  · exact unguarded_ok _
  split
  · exact unguarded_ok _
  split
  · exact unguarded_error rfl
  split
  · exact unguarded_error rfl
  split
  · exact unguarded_error rfl
  · refine (unguarded_readKey _ _ _).bind fun _ => ?_
    exact (hinner.readValue _ _ _ _ _ _).bind fun _ => unguarded_ok _

theorem Unguarding.nextItem (indent : Nat) (ls : List Line) :
    Unguarded (nextItem inner indent ls) := by
  unfold Document.nextItem
  split
  · exact unguarded_ok _
  next l rest hnext =>
  split
  · exact unguarded_ok _
  split
  · exact unguarded_error rfl
  split
  · exact unguarded_ok _
  next hitem =>
  have hitem : isItem l.text = true := by simpa using hitem
  simp only
  split
  · have hcontent := Line.ignorable_passTo hitem (Grammar.behindDash_suffix_tail l)
    have hblock := hinner.block (skipIgnorable_cons hcontent rest)
    rw [Grammar.behindDash, Line.indent_passTo_trimStart] at hblock
    exact hblock.bind fun _ => unguarded_ok _
  · exact (hinner.readValue _ _ _ _ _ _).bind fun _ => unguarded_ok _

theorem Unguarding.readMapping (indent : Nat) (ls : List Line) :
    Unguarded (readMapping inner indent ls) := by
  unfold Document.readMapping
  exact (unguarded_readItems (hinner.nextEntry indent) (fun _ _ => True) (fun _ _ => rfl)
    (fun _ _ => trivial) trivial []).bind fun _ => unguarded_ok _

theorem Unguarding.readSequence (indent : Nat) (ls : List Line) :
    Unguarded (readSequence inner indent ls) := by
  unfold Document.readSequence
  exact (unguarded_readItems (hinner.nextItem indent) (fun _ _ => True) (fun _ _ => rfl)
    (fun _ _ => trivial) trivial []).bind fun _ => unguarded_ok _

theorem Unguarding.readBlock {ls rest : List Line} {l : Line}
    (hnext : skipIgnorable ls = l :: rest) : Unguarded (readBlock inner l.indent ls) := by
  unfold Document.readBlock
  rw [hnext]
  simp only [ne_eq, not_true_eq_false, if_false]
  split
  · exact hinner.readSequence _ _
  split
  · exact hinner.readMapping _ _
  · exact (hinner.inline _ _ _).map _

end Levels

theorem unguarded_refuseDeeper {ls rest : List Line} {l : Line}
    (hnext : skipIgnorable ls = l :: rest) : Unguarded (refuseDeeper ls) := by
  unfold refuseDeeper
  rw [hnext]
  exact unguarded_error rfl

theorem unguarding_noReaders : Unguarding noReaders where
  block hnext := unguarded_refuseDeeper hnext
  sequence _ hnext := unguarded_refuseDeeper hnext
  inline _ column text := unguarded_readInline 0 column text

theorem unguarding_readers : ∀ room, Unguarding (readers room)
  | 0 =>
    { block := fun hnext => unguarded_refuseDeeper hnext
      sequence := fun indent _ => unguarding_noReaders.readSequence indent _
      inline := fun _ column text => unguarded_readInline 0 column text }
  | room + 1 =>
    { block := fun hnext => (unguarding_readers room).readBlock hnext
      sequence := fun indent _ => (unguarding_readers room).readSequence indent _
      inline := fun _ column text => unguarded_readInline (room + 1) column text }

/-! ### Documents -/

theorem unguarded_readRoot (ls : List Line) : Unguarded (readRoot ls) := by
  rw [readRoot_eq]
  split
  · exact unguarded_ok _
  next l rest hlines =>
  refine ((unguarding_readers _).block (skipIgnorable_next hlines)).bind fun read => ?_
  unfold finish
  split
  · exact unguarded_ok _
  split
  · exact unguarded_ok _
  · exact unguarded_error rfl

theorem unguarded_read (text : List Char) : Unguarded (Document.read text) := by
  unfold Document.read
  simp only
  split
  · exact unguarded_error rfl
  · exact (unguarded_readRoot _).map _

/-! ### Messages -/

/-- How the message of a fault starts, up to what it quotes or counts. -/
def Fault.opening : Fault → String
  | .tooManyLines => "document exceeds max supported line count ("
  | .contentAfterEnd => "did not find expected <document end>"
  | .tooDeep => "maximum nesting depth exceeded ("
  | .tooManyItems c => c.name
  | .tooLong => "inline value exceeds max length ("
  | .missingContent => "did not find expected content"
  | .unexpectedIndent _ _ => "unexpected indentation: expected "
  | .deeperIndent _ _ => "unexpected indentation in "
  | .mixed => "mixed sequence/mapping"
  | .missingColon => "could not find expected ':'"
  | .emptyKey => "empty mapping key"
  | .quoted _ .missingQuote => "invalid quoted string "
  | .quoted _ .unterminated => "unterminated quoted string "
  | .quoted _ (.unknownEscape _) => "found unknown escape character "
  | .quoted _ (.invalidEscape _ _) => "invalid escape code "
  | .contentAfterKey _ => "unexpected content after quoted key "
  | .contentAfterScalar _ => "unexpected content after quoted scalar "
  | .missingBraces _ => "invalid inline object syntax "
  | .missingBrackets _ => "invalid inline array syntax "
  | .missingFlowColon _ => "invalid inline object entry "
  | .blockHeader _ => "invalid block scalar header "

theorem prefix_toList_append {a m : String} (h : a.toList <+: m.toList) (b : String) :
    a.toList <+: (m ++ b).toList := by
  rw [String.toList_append]
  exact h.trans (List.prefix_append _ _)

theorem opening_prefix (fault : Fault) : fault.opening.toList <+: fault.message.toList := by
  have one : ∀ a b : String, a.toList <+: (a ++ b).toList := fun a =>
    prefix_toList_append List.prefix_rfl
  cases fault with
  | contentAfterEnd | missingContent | mixed | missingColon | emptyKey => exact List.prefix_rfl
  | contentAfterKey | contentAfterScalar | blockHeader => exact one _ _
  | tooManyLines | tooDeep | tooLong | missingBraces | missingBrackets | missingFlowColon =>
      exact prefix_toList_append (one _ _) _
  | tooManyItems | unexpectedIndent | deeperIndent =>
      exact prefix_toList_append (prefix_toList_append (one _ _) _) _
  | quoted text fault =>
      cases fault with
      | missingQuote | unterminated | unknownEscape | invalidEscape =>
          exact prefix_toList_append (one _ _) _

/-- How the messages of guards start that have one. -/
def guardOpenings : List String :=
  ["unexpected indentation: expected ", "inline object", "inline array", "invalid quoted string "]

/-- No other message starts like these. -/
theorem opening_apart {fault : Fault} (h : fault.isGuard = false) : ∀ a ∈ guardOpenings,
    ¬a.toList <+: fault.opening.toList ∧ ¬fault.opening.toList <+: a.toList := by
  cases fault with
  | missingContent | unexpectedIndent => cases h
  | tooManyItems c =>
      cases c with
      | flowMapping | flowSequence => cases h
      | blockMapping | blockSequence => decide +kernel
  | quoted text fault =>
      cases fault with
      | missingQuote => cases h
      | unterminated | unknownEscape | invalidEscape =>
          simp only [Fault.opening]
          decide +kernel
  | _ =>
      simp only [Fault.opening]
      decide +kernel

theorem message_ne_of_not_guard {fault : Fault} (h : fault.isGuard = false) {a : String}
    (ha : a ∈ guardOpenings) (rest : String) : fault.message ≠ a ++ rest := by
  intro hmessage
  obtain ⟨hguard, hother⟩ := opening_apart h a ha
  have hopening := opening_prefix fault
  rw [hmessage, String.toList_append] at hopening
  rcases List.prefix_or_prefix_of_prefix hopening (List.prefix_append _ _) with hle | hle
  · exact hother hle
  · exact hguard hle

end Document

open Document

/-- The document is refused with that message. -/
def FailsWith (text message : String) : Prop :=
  ∃ e, parse text = .error e ∧ e.fault.message = message

theorem unguarded_parse (text : String) : Unguarded (parse text) :=
  (unguarded_read text.toList).map Tree.ofRose

theorem not_failsWith {a : String} (ha : a ∈ guardOpenings) (text rest : String) :
    ¬FailsWith text (a ++ rest) := by
  rintro ⟨e, hparse, hmessage⟩
  exact message_ne_of_not_guard (unguarded_parse text e hparse) ha rest hmessage

/-- **No document has the fault of a guard.**  Nothing goes on behind a fault, so where the one for
missing content does not come out, no block was ever read with no line left. -/
theorem parse_guards (text : String) :
    (∀ expected found : Nat, ¬FailsWith text
      ("unexpected indentation: expected " ++ toString expected ++ ", found " ++ toString found)) ∧
      (∀ line, parse text ≠ .error ⟨line, .missingContent⟩) ∧
      ¬FailsWith text "inline object exceeds max item count (50000)" ∧
      ¬FailsWith text "inline array exceeds max item count (50000)" ∧
      ∀ quoted : String, ¬FailsWith text
        ("invalid quoted string '" ++ quoted ++ "': missing quote") := by
  refine ⟨fun expected found => ?_, fun line h => ?_, ?_, ?_, fun quoted => ?_⟩
  · rw [String.append_assoc, String.append_assoc]
    exact not_failsWith (by simp [guardOpenings]) _ _
  · exact absurd (unguarded_parse text _ h) nofun
  · exact not_failsWith (a := "inline object") (by simp [guardOpenings]) text
      " exceeds max item count (50000)"
  · exact not_failsWith (a := "inline array") (by simp [guardOpenings]) text
      " exceeds max item count (50000)"
  · have h := not_failsWith (a := "invalid quoted string ") (by simp [guardOpenings]) text
      ("'" ++ quoted ++ "': missing quote")
    rwa [← String.append_assoc, ← String.append_assoc] at h

end YamlDecode
