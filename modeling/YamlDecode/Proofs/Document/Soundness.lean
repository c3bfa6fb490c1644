/-
All that is read is read by the rules.

For each reader there is one statement of what it can have done if it succeeds, guards
included, and from these the derivation is put together.  Values on one line are an
induction on how many levels deep they may go.  Blocks are too: what one level needs of the
level below is `Sound`, and `sound_readers` ties the knot.
-/
import YamlDecode.Document
import YamlDecode.Proofs.Document.Grammar
import YamlDecode.Proofs.Document.Inline

namespace YamlDecode

/-! ### Outcomes -/

section Outcome

variable {ε α β : Type}

theorem exists_of_bind_eq_ok {x : Except ε α} {f : α → Except ε β} {b : β}
    (h : (x >>= f) = .ok b) : ∃ a, x = .ok a ∧ f a = .ok b := by
  cases x with
  | error e => cases h
  | ok a => exact ⟨a, rfl, h⟩

theorem exists_of_map_eq_ok {x : Except ε α} {f : α → β} {b : β} (h : x.map f = .ok b) :
    ∃ a, x = .ok a ∧ f a = b := by
  cases x with
  | error e => cases h
  | ok a => exact ⟨a, rfl, Except.ok.inj h⟩

end Outcome

namespace Document

open YamlDecode.Text

/-! ### Items of collections -/

/-- A collection that is read has its items read, up to where there is no further one, and not
too many of them. -/
theorem reads_of_readItems {σ : Type} {c : Collection}
    {next : σ → Except ParseError (Option (Item × σ))} {room : Nat} :
    ∀ {done nodes : List (Rose Label)} {s s' : σ},
      readItems c next room done s = .ok (nodes, s') →
        ∃ items, Reads next Eq s items s' ∧ items.length ≤ room ∧
          nodes = done.reverse ++ items.flatMap Item.nodes := by
  induction room with
  | zero =>
      intro done nodes s s' h
      unfold readItems at h
      split at h
      · cases h
      · next hstop =>
        cases h
        exact ⟨[], .nil hstop, Nat.le_refl _, by simp⟩
      · cases h
  | succ room ih =>
      intro done nodes s s' h
      unfold readItems at h
      split at h
      · cases h
      · next hstop =>
        cases h
        exact ⟨[], .nil hstop, Nat.zero_le _, by simp⟩
      · next item rest hfirst =>
        obtain ⟨items, hreads, hlength, rfl⟩ := ih h
        refine ⟨item :: items, .cons hfirst rfl hreads, Nat.succ_le_succ hlength, ?_⟩
        simp

/-! ### Values on one line -/

theorem nextPiece_blank {p : Scanner.Piece} (h : allBlank p.text = true) (ps : List Scanner.Piece) :
    nextPiece (p :: ps) = nextPiece ps := by
  simp [nextPiece, h]

theorem nextPiece_content {p : Scanner.Piece} (h : allBlank p.text = false)
    (ps : List Scanner.Piece) : nextPiece (p :: ps) = some (p, ps) := by
  simp [nextPiece, h]

/-- The items of a flow collection are those of its pieces with content. -/
theorem forall₂_of_reads {item : Scanner.Piece → Except ParseError Item} :
    ∀ {ps ps' : List Scanner.Piece} {items : List Item}, Reads (nextFlowItem item) Eq ps items ps' →
      List.Forall₂ (fun p i => item p = .ok i) (ps.filter fun p => !allBlank p.text) items := by
  intro ps
  induction ps with
  | nil =>
      intro ps' items h
      rcases h with - | ⟨hfirst, -, -⟩
      · exact .nil
      · cases hfirst
  | cons p ps ih =>
      intro ps' items h
      by_cases hblank : allBlank p.text = true
      · have hnext : nextFlowItem item (p :: ps) = nextFlowItem item ps := by
          rw [nextFlowItem, nextPiece_blank hblank, nextFlowItem]
        rw [List.filter_cons_of_neg (by simp [hblank])]
        rcases h with hstop | ⟨hfirst, hitem, hrest⟩
        · exact ih (.nil (hnext ▸ hstop))
        · exact ih (.cons (hnext ▸ hfirst) hitem hrest)
      · have hcontent : allBlank p.text = false := by simpa using hblank
        have hnext : nextFlowItem item (p :: ps) = (item p).map fun i => some (i, ps) := by
          rw [nextFlowItem, nextPiece_content hcontent]
        rw [List.filter_cons_of_pos (by simp [hcontent])]
        rcases h with hstop | ⟨hfirst, rfl, hrest⟩
        · obtain ⟨i, -, hi⟩ := exists_of_map_eq_ok (hnext ▸ hstop)
          cases hi
        · obtain ⟨i, hi, hsome⟩ := exists_of_map_eq_ok (hnext ▸ hfirst)
          cases hsome
          exact .cons hi (ih hrest)

/-- A key that is read is quoted or plain. -/
theorem readKey_eq_ok {line column : Nat} {text : List Char} {key : Rose Label}
    (h : readKey line column text = .ok key) :
    (∃ value behind, Quoted.opens (trim text) = true ∧
      Quoted.read (trim text) = .ok (value, behind) ∧ key = leaf .str value line column) ∨
      Quoted.opens (trim text) = false ∧
        key = leaf (Tag.ofPlain (trim text)) (trim text) line column := by
  unfold readKey at h
  simp only at h
  split at h
  · cases h
  split at h
  · next hopens =>
    split at h
    · cases h
    · next value behind hread =>
      split at h
      · cases h
        exact .inl ⟨value, behind, hopens, hread, rfl⟩
      · cases h
  · next hopens =>
    cases h
    exact .inr ⟨Bool.eq_false_iff.2 hopens, rfl⟩

/-- A piece of a flow mapping is a key, a colon and a value. -/
theorem flowEntry_eq_ok {value : Nat → List Char → Except ParseError (Rose Label)}
    {line column : Nat} {p : Scanner.Piece} {item : Item}
    (h : flowEntry value line column p = .ok item) :
    ∃ before after key node, flowColon (trim p.text) = some (before, after) ∧
      readKey line (Grammar.startOf column p) before = .ok key ∧
      value (Grammar.startOf column p + width before + 1 + blankWidth after) after = .ok node ∧
      item.nodes = [key, node] := by
  unfold flowEntry at h
  simp only at h
  split at h
  · cases h
  · next before after hcolon =>
    obtain ⟨key, hkey, h⟩ := exists_of_bind_eq_ok h
    obtain ⟨node, hnode, h⟩ := exists_of_bind_eq_ok h
    cases h
    exact ⟨before, after, key, node, hcolon, hkey, hnode, rfl⟩

theorem flowItem_eq_ok {value : Nat → List Char → Except ParseError (Rose Label)}
    {line column : Nat} {p : Scanner.Piece} {item : Item}
    (h : flowItem value line column p = .ok item) :
    ∃ node, value (Grammar.startOf column p) (trim p.text) = .ok node ∧ item.nodes = [node] := by
  unfold flowItem at h
  obtain ⟨node, hnode, h⟩ := exists_of_bind_eq_ok h
  cases h
  exact ⟨node, hnode, rfl⟩

theorem flowEntries_of_forall₂ {value : Nat → List Char → Except ParseError (Rose Label)}
    {line column : Nat}
    (hvalue : ∀ {column text node}, value column text = .ok node →
      Grammar.Inline line column text node)
    {ps : List Scanner.Piece} {items : List Item}
    (h : List.Forall₂ (fun p i => flowEntry value line column p = .ok i) ps items) :
    Grammar.FlowEntries line column ps (items.flatMap Item.nodes) ∧
      (items.flatMap Item.nodes).length = 2 * items.length := by
  induction h with
  | nil => exact ⟨.nil, rfl⟩
  | cons hfirst _ ih =>
      obtain ⟨before, after, key, node, hcolon, hkey, hnode, hnodes⟩ := flowEntry_eq_ok hfirst
      obtain ⟨hrest, hlength⟩ := ih
      rw [List.flatMap_cons, hnodes]
      refine ⟨.cons hcolon hkey (hvalue hnode) hrest, ?_⟩
      simp only [List.length_append, List.length_cons, List.length_nil, hlength]
      omega

theorem flowItems_of_forall₂ {value : Nat → List Char → Except ParseError (Rose Label)}
    {line column : Nat}
    (hvalue : ∀ {column text node}, value column text = .ok node →
      Grammar.Inline line column text node)
    {ps : List Scanner.Piece} {items : List Item}
    (h : List.Forall₂ (fun p i => flowItem value line column p = .ok i) ps items) :
    Grammar.FlowItems line column ps (items.flatMap Item.nodes) ∧
      (items.flatMap Item.nodes).length = items.length := by
  induction h with
  | nil => exact ⟨.nil, rfl⟩
  | cons hfirst _ ih =>
      obtain ⟨node, hnode, hnodes⟩ := flowItem_eq_ok hfirst
      obtain ⟨hrest, hlength⟩ := ih
      rw [List.flatMap_cons, hnodes]
      refine ⟨.cons (hvalue hnode) hrest, ?_⟩
      simp only [List.length_append, List.length_cons, List.length_nil, hlength]
      omega

theorem flowItems_eq_ok {c : Collection} {item : Scanner.Piece → Except ParseError Item}
    {inner : List Char} {nodes : List (Rose Label)} (h : flowItems c item inner = .ok nodes) :
    ∃ items, List.Forall₂ (fun p i => item p = .ok i) (Grammar.contentPieces inner) items ∧
      items.length ≤ maxItems ∧ nodes = items.flatMap Item.nodes := by
  rw [flowItems_eq_readItems] at h
  obtain ⟨⟨nodes', rest⟩, hread, rfl⟩ := exists_of_map_eq_ok h
  obtain ⟨items, hreads, hlength, hnodes⟩ := reads_of_readItems hread
  exact ⟨items, forall₂_of_reads hreads, hlength, hnodes⟩

theorem beforeLast_eq_some {closing : Char} {text inner : List Char}
    (h : beforeLast closing text = some inner) : text = inner ++ [closing] := by
  unfold beforeLast at h
  split at h
  · next hlast =>
    cases h
    exact (List.dropLast_append_getLast? closing hlast).symm
  · cases h

theorem readInline_sound {room line : Nat} :
    ∀ {column : Nat} {text : List Char} {node : Rose Label},
      readInline room line column text = .ok node → Grammar.Inline line column text node := by
  induction room with
  | zero => nofun
  | succ room ih =>
      intro column text node h
      unfold readInline at h
      simp only at h
      split at h
      · cases h
      split at h
      · next hopens =>
        split at h
        · cases h
        · next value rest hread =>
          split at h
          · cases h
            exact .quoted hopens hread
          · cases h
      · next hopens =>
        have hopens : Quoted.opens (trim text) = false := by simpa using hopens
        unfold readUnquoted at h
        split at h
        · next tail hcontent =>
          split at h
          · cases h
          · next inner hinner =>
            obtain ⟨nodes, hnodes, h⟩ := exists_of_bind_eq_ok h
            cases h
            obtain ⟨items, hitems, hlength, rfl⟩ := flowItems_eq_ok hnodes
            obtain ⟨hentries, hcount⟩ := flowEntries_of_forall₂ ih hitems
            rw [beforeLast_eq_some hinner] at hcontent
            exact .mapping hopens hcontent hentries (by omega)
        · next tail hcontent =>
          split at h
          · cases h
          · next inner hinner =>
            obtain ⟨nodes, hnodes, h⟩ := exists_of_bind_eq_ok h
            cases h
            obtain ⟨items, hitems, hlength, rfl⟩ := flowItems_eq_ok hnodes
            obtain ⟨hitems, hcount⟩ := flowItems_of_forall₂ ih hitems
            rw [beforeLast_eq_some hinner] at hcontent
            exact .sequence hopens hcontent hitems (by omega)
        · next hbrace hbracket =>
          cases h
          exact .word hopens rfl fun tail => ⟨hbrace tail, hbracket tail⟩

/-! ### Blocks -/

/-- What is read at one level is read by the rules. -/
structure Sound (inner : Readers) : Prop where
  block : ∀ {indent : Nat} {ls after : List Line} {node : Rose Label},
    inner.block indent ls = .ok (node, after) → Grammar.Block ls node after
  sequence : ∀ {l : Line} {rest after : List Line} {node : Rose Label}, isItem l.text = true →
    inner.sequence l.indent (l :: rest) = .ok (node, after) →
      Grammar.Sequence (l :: rest) node after
  inline : ∀ {line column : Nat} {text : List Char} {node : Rose Label},
    inner.inline line column text = .ok node → Grammar.Inline line column text node

variable {inner : Readers}

theorem readValue_sound (hinner : Sound inner) {compact : Bool} {l : Line} {text : List Char}
    {ls after : List Line} {node : Rose Label}
    (h : readValue inner compact l.number l.indent (l.columnOf text) text ls = .ok (node, after)) :
    Grammar.Value compact l text ls node after := by
  unfold readValue at h
  split at h
  · next hempty =>
    split at h
    · cases h
      exact .null hempty
    · next next rest hnext =>
      split at h
      · next hdeeper => exact .deeper hempty hnext hdeeper (hinner.block h)
      split at h
      · next hcompact =>
        simp only [Bool.and_eq_true, beq_iff_eq] at hcompact
        obtain ⟨⟨rfl, hlevel⟩, hitem⟩ := hcompact
        rw [← hlevel] at h
        exact .compact hempty hnext hlevel (hinner.sequence hitem h)
      · cases h
        exact .null hempty
  · split at h
    · cases h
    · next header hheader =>
      cases h
      exact .scalar hheader rfl
    · obtain ⟨node', hnode, hpair⟩ := exists_of_map_eq_ok h
      cases hpair
      exact .inline (hinner.inline hnode)

/-! #### Mappings -/

theorem nextEntry_eq_none {indent : Nat} {ls : List Line}
    (h : nextEntry inner indent ls = .ok none) : Next (·.indent < indent) ls := by
  intro l rest hnext
  unfold nextEntry at h
  rw [hnext] at h
  simp only at h
  split at h
  · assumption
  split at h
  · cases h
  split at h
  · cases h
  split at h
  · cases h
  · obtain ⟨key, -, h⟩ := exists_of_bind_eq_ok h
    obtain ⟨read, -, h⟩ := exists_of_bind_eq_ok h
    cases h

/-- An entry that is read is a line with a key, and a value behind it. -/
theorem nextEntry_eq_some {indent : Nat} {ls after : List Line} {item : Item}
    (h : nextEntry inner indent ls = .ok (some (item, after))) :
    ∃ l rest before behind key node, skipIgnorable ls = l :: rest ∧ l.indent = indent ∧
      blockColon l.text = some (before, behind) ∧ readKey l.number (indent + 1) before = .ok key ∧
      readValue inner true l.number l.indent (l.columnOf (trimStart behind)) (trimStart behind)
        rest = .ok (node, after) ∧
      item = ⟨l.number, [key, node]⟩ := by
  unfold nextEntry at h
  split at h
  · cases h
  next l rest hnext =>
  split at h
  · cases h
  split at h
  · cases h
  have hlevel : l.indent = indent := by omega
  split at h
  · cases h
  split at h
  · cases h
  next before behind hcolon =>
  obtain ⟨key, hkey, h⟩ := exists_of_bind_eq_ok h
  obtain ⟨⟨node, after'⟩, hvalue, h⟩ := exists_of_bind_eq_ok h
  cases h
  subst hlevel
  exact ⟨l, rest, before, behind, key, node, hnext, rfl, hcolon, hkey, hvalue, rfl⟩

theorem entries_of_reads (hinner : Sound inner) {indent : Nat} {ls after : List Line}
    {items : List Item} (h : Reads (nextEntry inner indent) Eq ls items after) :
    Grammar.Entries indent ls (items.flatMap Item.nodes) after ∧
      (items.flatMap Item.nodes).length = 2 * items.length := by
  induction h with
  | nil stop => exact ⟨.nil (nextEntry_eq_none stop), rfl⟩
  | cons first value _ ih =>
      subst value
      obtain ⟨hmore, hlength⟩ := ih
      obtain ⟨l, rest, before, behind, key, node, hnext, hlevel, hcolon, hkey, hvalue, rfl⟩ :=
        nextEntry_eq_some first
      rw [List.flatMap_cons]
      refine ⟨.cons hnext hlevel hcolon hkey (readValue_sound hinner hvalue) hmore, ?_⟩
      simp only [List.length_append, List.length_cons, List.length_nil, hlength]
      omega

theorem readMapping_sound (hinner : Sound inner) {ls rest after : List Line} {l : Line}
    {node : Rose Label} (hnext : skipIgnorable ls = l :: rest)
    (hcolon : (blockColon l.text).isSome = true)
    (h : readMapping inner l.indent (l :: rest) = .ok (node, after)) :
    Grammar.Block ls node after := by
  unfold readMapping at h
  obtain ⟨⟨nodes, after'⟩, hread, h⟩ := exists_of_bind_eq_ok h
  cases h
  obtain ⟨items, hreads, hlength, rfl⟩ := reads_of_readItems hread
  obtain ⟨hentries, hcount⟩ := entries_of_reads hinner hreads
  rw [List.reverse_nil, List.nil_append]
  exact .mapping hnext hcolon hentries (by omega)

/-! #### Sequences -/

theorem nextItem_eq_none {indent : Nat} {ls : List Line} (h : nextItem inner indent ls = .ok none) :
    Next (Line.EndsSequence indent) ls := by
  intro l rest hnext
  unfold nextItem at h
  rw [hnext] at h
  simp only at h
  split at h
  · next hless => exact .inl hless
  split at h
  · cases h
  split at h
  · next hitem => exact .inr ⟨by omega, by simpa using hitem⟩
  split at h
  all_goals
    obtain ⟨read, -, h⟩ := exists_of_bind_eq_ok h
    cases h

/-- An item that is read is a line with a dash; what is behind the dash is a block of its own or
a value. -/
theorem nextItem_eq_some {indent : Nat} {ls after : List Line} {item : Item}
    (h : nextItem inner indent ls = .ok (some (item, after))) :
    ∃ l rest node, skipIgnorable ls = l :: rest ∧ l.indent = indent ∧ isItem l.text = true ∧
      item = ⟨l.number, [node]⟩ ∧
      (startsBlock (Grammar.behindDash l) = true ∧
        inner.block (l.passTo (Grammar.behindDash l)).offset
          (l.passTo (Grammar.behindDash l) :: rest) = .ok (node, after) ∨
      startsBlock (Grammar.behindDash l) = false ∧
        readValue inner false l.number l.indent (l.columnOf (Grammar.behindDash l))
          (Grammar.behindDash l) rest = .ok (node, after)) := by
  unfold nextItem at h
  split at h
  · cases h
  next l rest hnext =>
  split at h
  · cases h
  split at h
  · cases h
  have hlevel : l.indent = indent := by omega
  split at h
  · cases h
  next hitem =>
  have hitem : isItem l.text = true := by simpa using hitem
  subst hlevel
  simp only at h
  split at h
  · next hstarts =>
    obtain ⟨⟨node, after'⟩, hblock, h⟩ := exists_of_bind_eq_ok h
    cases h
    exact ⟨l, rest, node, hnext, rfl, hitem, rfl, .inl ⟨hstarts, hblock⟩⟩
  · next hstarts =>
    obtain ⟨⟨node, after'⟩, hvalue, h⟩ := exists_of_bind_eq_ok h
    cases h
    exact ⟨l, rest, node, hnext, rfl, hitem, rfl, .inr ⟨Bool.eq_false_iff.2 hstarts, hvalue⟩⟩

theorem items_of_reads (hinner : Sound inner) {indent : Nat} {ls after : List Line}
    {items : List Item} (h : Reads (nextItem inner indent) Eq ls items after) :
    Grammar.Items indent ls (items.flatMap Item.nodes) after ∧
      (items.flatMap Item.nodes).length = items.length := by
  induction h with
  | nil stop => exact ⟨.nil (nextItem_eq_none stop), rfl⟩
  | cons first value _ ih =>
      subst value
      obtain ⟨hmore, hlength⟩ := ih
      obtain ⟨l, rest, node, hnext, hlevel, hitem, rfl, hvalue⟩ := nextItem_eq_some first
      rw [List.flatMap_cons]
      constructor
      · rcases hvalue with ⟨hstarts, hblock⟩ | ⟨hstarts, hvalue⟩
        · exact .block hnext hlevel hitem hstarts (hinner.block hblock) hmore
        · exact .value hnext hlevel hitem hstarts (readValue_sound hinner hvalue) hmore
      · simp only [List.length_append, List.length_cons, List.length_nil, hlength]
        omega

theorem readSequence_sound (hinner : Sound inner) {l : Line} {rest after : List Line}
    {node : Rose Label} (hitem : isItem l.text = true)
    (h : readSequence inner l.indent (l :: rest) = .ok (node, after)) :
    Grammar.Sequence (l :: rest) node after := by
  unfold readSequence at h
  obtain ⟨⟨nodes, after'⟩, hread, h⟩ := exists_of_bind_eq_ok h
  cases h
  obtain ⟨items, hreads, hlength, rfl⟩ := reads_of_readItems hread
  obtain ⟨hitems, hcount⟩ := items_of_reads hinner hreads
  rw [List.reverse_nil, List.nil_append]
  exact .items hitem hitems (by omega)

/-! #### All levels -/

theorem readBlock_sound (hinner : Sound inner) {indent : Nat} {ls after : List Line}
    {node : Rose Label} (h : readBlock inner indent ls = .ok (node, after)) :
    Grammar.Block ls node after := by
  unfold readBlock at h
  split at h
  · cases h
  next l rest hnext =>
  split at h
  · cases h
  next hlevel =>
  have hlevel : l.indent = indent := by simpa using hlevel
  subst hlevel
  split at h
  · next hitem => exact .sequence hnext (readSequence_sound hinner hitem h)
  split at h
  · next hcolon => exact readMapping_sound hinner hnext hcolon h
  · obtain ⟨node', hnode, hpair⟩ := exists_of_map_eq_ok h
    cases hpair
    exact .inline hnext (hinner.inline hnode)

theorem refuseDeeper_ne_ok (ls after : List Line) (node : Rose Label) :
    refuseDeeper ls ≠ .ok (node, after) := by
  unfold refuseDeeper
  split
  · nofun
  · nofun

theorem sound_noReaders : Sound noReaders where
  block h := absurd h (refuseDeeper_ne_ok _ _ _)
  sequence _ h := absurd h (refuseDeeper_ne_ok _ _ _)
  inline h := readInline_sound h

theorem sound_readers : ∀ room, Sound (readers room)
  | 0 =>
    { block := fun h => absurd h (refuseDeeper_ne_ok _ _ _)
      sequence := fun hitem h => readSequence_sound sound_noReaders hitem h
      inline := fun h => readInline_sound h }
  | room + 1 =>
    { block := fun h => readBlock_sound (sound_readers room) h
      sequence := fun hitem h => readSequence_sound (sound_readers room) hitem h
      inline := fun h => readInline_sound h }

/-! ### Documents -/

/-- The lines behind a mark of the start of a document, if that comes first. -/
def behindMark (ls : List Line) : List Line :=
  match skipIgnorable ls with
  | [] => []
  | l :: rest => if trim l.rest == ['-', '-', '-'] then rest else l :: rest

/-- The lines from the first one with content, behind such a mark. -/
def rootLines (ls : List Line) : List Line := skipIgnorable (behindMark ls)

theorem rootLines_suffix (ls : List Line) : rootLines ls <:+ ls := by
  have hskip := List.dropWhile_suffix (l := ls) Line.ignorable
  refine (List.dropWhile_suffix _).trans ?_
  unfold behindMark
  split
  · exact List.nil_suffix
  · next l rest hnext =>
    rw [← skipIgnorable, hnext] at hskip
    split
    · exact (List.suffix_cons l rest).trans hskip
    · exact hskip

/-- The outcome for a document whose root has been read: no content follows, but for a mark of its
end. -/
def finish (root : Rose Label) (after : List Line) : ReadResult :=
  match skipIgnorable after with
  | [] => .ok (root, [])
  | l :: rest =>
    if trim l.rest == ['.', '.', '.'] then .ok (root, rest) else .error ⟨l.number, .contentAfterEnd⟩

theorem finish_eq_ok {root node : Rose Label} {after last : List Line}
    (h : finish root after = .ok (node, last)) : node = root := by
  unfold finish at h
  split at h
  · cases h
    rfl
  split at h
  · cases h
    rfl
  · cases h

theorem readRoot_eq (ls : List Line) :
    readRoot ls = match rootLines ls with
      | [] => .ok (leaf .null [] 1 1, [])
      | l :: rest =>
        (readers (maxDepth + 1)).block l.indent (l :: rest) >>= fun r => finish r.1 r.2 :=
  rfl

/-- **The root of a document is null or is read by the rules.** -/
theorem readRoot_sound {ls after : List Line} {node : Rose Label}
    (h : readRoot ls = .ok (node, after)) :
    rootLines ls = [] ∧ node = leaf .null [] 1 1 ∨
      ∃ last, Grammar.Block (rootLines ls) node last := by
  rw [readRoot_eq] at h
  split at h
  · next hnil =>
    cases h
    exact .inl ⟨hnil, rfl⟩
  · next l rest hlines =>
    obtain ⟨⟨root, last⟩, hblock, hfinish⟩ := exists_of_bind_eq_ok h
    obtain rfl := finish_eq_ok hfinish
    exact .inr ⟨last, hlines ▸ (sound_readers (maxDepth + 1)).block hblock⟩

/-- **What is read of a text is read by the rules**, unless no line has content. -/
theorem read_sound {text : List Char} {node : Rose Label} (h : Document.read text = .ok node) :
    rootLines (linesOf text) = [] ∧ node = leaf .null [] 1 1 ∨
      ∃ last, Grammar.Block (rootLines (linesOf text)) node last := by
  unfold Document.read at h
  simp only at h
  split at h
  · cases h
  · obtain ⟨⟨node', after⟩, hread, hnode⟩ := exists_of_map_eq_ok h
    cases hnode
    exact readRoot_sound hread

end Document

end YamlDecode
