/-
Flow sequences of words.

The words of a flow sequence are told apart at its commas, and the scanner of commas takes a quote
inside a word for an opening one.  So a word with an apostrophe does not end at the comma behind it:
it goes on through the words behind it, up to the one that closes the quotes again.  `gather` puts
words together in this way, and what is read are the gathered words.

That gathering is all that happens is shown along the words.  What has been gathered is run through
like a single word (`Gathered`), and a word put behind it leaves it so, as long as its quotes are
open.
-/
import YamlDecode.Proofs.Document.Block
import YamlDecode.Proofs.Text.OpenQuotes
import YamlDecode.Proofs.Tree.Graft

namespace YamlDecode

open YamlDecode.Text

namespace Document

/-- What can be an item of a flow sequence without quotes. -/
structure FlowWord (cs : List Char) : Prop where
  tight : Tight cs
  first : ∀ c ∈ ['"', '\''], cs.head? ≠ some c
  marks : ∀ c ∈ '#' :: flowMarks, c ∉ cs

instance : DecidablePred FlowWord := fun cs =>
  have : Decidable (∀ c ∈ ['"', '\''], cs.head? ≠ some c) := List.decidableBAll _ _
  have : Decidable (∀ c ∈ '#' :: flowMarks, c ∉ cs) := List.decidableBAll _ _
  decidable_of_iff (Tight cs ∧ (∀ c ∈ ['"', '\''], cs.head? ≠ some c) ∧
      ∀ c ∈ '#' :: flowMarks, c ∉ cs)
    ⟨fun ⟨tight, first, marks⟩ => ⟨tight, first, marks⟩, fun h => ⟨h.tight, h.first, h.marks⟩⟩

/-! ### Gathering -/

/-- The loop of `gather`: `word` has been gathered, and goes on while its quotes are open. -/
def gatherFrom (word : List Char) : List (List Char) → List (List Char)
  | [] => [word]
  | w :: ws =>
    if QuotesClosed word then word :: gatherFrom w ws else gatherFrom (word ++ ',' :: ' ' :: w) ws

/-- The items that a reader makes of words with commas between them. -/
def gather : List (List Char) → List (List Char)
  | [] => []
  | w :: ws => gatherFrom w ws

/-- A text that is read as one word, and in which the scanner of commas follows the quotes. -/
structure Gathered (cs : List Char) : Prop where
  tight : Tight cs
  first : ∀ c ∈ ['"', '\'', '{', '['], cs.head? ≠ some c
  comment : '#' ∉ cs
  run : commaScanner.run (.plain, 0) cs = some (cs.foldl Quoting.step .plain, 0)

theorem FlowWord.gathered {w : List Char} (h : FlowWord w) : Gathered w where
  tight := h.tight
  first := by
    have hsplit : ∀ c ∈ ['"', '\'', '{', '['], c ∈ ['"', '\''] ∨ c ∈ '#' :: flowMarks := by
      simp [flowMarks]
    intro c hc hhead
    rcases hsplit c hc with hquote | hmark
    · exact h.first c hquote hhead
    · exact h.marks c hmark (List.mem_of_mem_head? hhead)
  comment := h.marks '#' (by simp)
  run := run_comma_quotes (fun c hc => h.marks c (by simp [hc])) 0 .plain

/-- With open quotes, a comma and the word behind it belong to what has been gathered. -/
theorem Gathered.append {cs w : List Char} (h : Gathered cs) (hopen : ¬QuotesClosed cs)
    (hw : FlowWord w) : Gathered (cs ++ ',' :: ' ' :: w) where
  tight := by
    have htight : Tight (cs ++ ([',', ' '] ++ w)) := h.tight.append hw.tight
    exact htight
  first := by
    intro c hc
    rw [List.head?_append_of_ne_nil _ h.tight.ne_nil]
    exact h.first c hc
  comment := by simp [h.comment, hw.marks '#' (by simp)]
  run := by
    have hmarks : ∀ c ∈ flowMarks, c ∉ w := fun c hc => hw.marks c (by simp [hc])
    rw [Scanner.run_append h.run, List.foldl_append]
    show commaScanner.run _ ([',', ' '] ++ w) = _
    rw [Scanner.run_append (run_comma_quoted hopen 0), run_comma_quotes hmarks]
    rfl

theorem gatherFrom_ne_nil (ws : List (List Char)) : ∀ cs, gatherFrom cs ws ≠ [] := by
  induction ws with
  | nil => exact fun cs => List.cons_ne_nil _ _
  | cons w ws ih =>
      intro cs
      rw [gatherFrom]
      split
      · exact List.cons_ne_nil _ _
      · exact ih _

theorem gathered_gatherFrom {ws : List (List Char)} (h : ∀ w ∈ ws, FlowWord w) :
    ∀ {cs}, Gathered cs → (∀ g ∈ gatherFrom cs ws, Gathered g) ∧
      ∀ g ∈ (gatherFrom cs ws).dropLast, QuotesClosed g := by
  induction ws with
  | nil =>
      intro cs hcs
      exact ⟨fun g hg => List.mem_singleton.1 hg ▸ hcs, nofun⟩
  | cons w ws ih =>
      intro cs hcs
      have hw := h w (by simp)
      have hws : ∀ u ∈ ws, FlowWord u := fun u hu => h u (by simp [hu])
      by_cases hclosed : QuotesClosed cs
      · obtain ⟨hall, hlast⟩ := ih hws hw.gathered
        rw [gatherFrom, if_pos hclosed, List.dropLast_cons_of_ne_nil (gatherFrom_ne_nil ws w)]
        exact ⟨List.forall_mem_cons.2 ⟨hcs, hall⟩, List.forall_mem_cons.2 ⟨hclosed, hlast⟩⟩
      · rw [gatherFrom, if_neg hclosed]
        exact ih hws (hcs.append hclosed hw)

/-- What is gathered is read word by word, and only the last one may leave quotes open. -/
theorem gathered_gather {ws : List (List Char)} (h : ∀ w ∈ ws, FlowWord w) :
    (∀ g ∈ gather ws, Gathered g) ∧ ∀ g ∈ (gather ws).dropLast, QuotesClosed g := by
  cases ws with
  | nil => exact ⟨nofun, nofun⟩
  | cons w ws =>
      exact gathered_gatherFrom (fun u hu => h u (List.mem_cons_of_mem w hu))
        (h w List.mem_cons_self).gathered

/-- Gathering changes nothing in the text. -/
theorem commaJoin_gatherFrom (ws : List (List Char)) :
    ∀ cs, commaJoin (gatherFrom cs ws) = commaJoin (cs :: ws) := by
  induction ws with
  | nil => exact fun cs => rfl
  | cons w ws ih =>
      intro cs
      by_cases hclosed : QuotesClosed cs
      · have hmore := ih w
        obtain ⟨u, us, hus⟩ := List.exists_cons_of_ne_nil (gatherFrom_ne_nil ws w)
        rw [gatherFrom, if_pos hclosed]
        rw [hus] at hmore ⊢
        rw [commaJoin_cons_cons, hmore, commaJoin_cons_cons]
      · have hgather : cs ++ ',' :: ' ' :: w = cs ++ [',', ' '] ++ w := by simp
        rw [gatherFrom, if_neg hclosed, ih, hgather, commaJoin_append_cons, commaJoin_cons_cons,
          List.append_assoc]
        rfl

theorem commaJoin_gather (ws : List (List Char)) : commaJoin (gather ws) = commaJoin ws := by
  cases ws with
  | nil => rfl
  | cons w ws => exact commaJoin_gatherFrom ws w

theorem length_gatherFrom_le (ws : List (List Char)) :
    ∀ cs, (gatherFrom cs ws).length ≤ ws.length + 1 := by
  induction ws with
  | nil => exact fun cs => Nat.le_refl 1
  | cons w ws ih =>
      intro cs
      by_cases hclosed : QuotesClosed cs
      · have hrest := ih w
        rw [gatherFrom, if_pos hclosed, List.length_cons, List.length_cons]
        omega
      · have hrest := ih (cs ++ ',' :: ' ' :: w)
        rw [gatherFrom, if_neg hclosed, List.length_cons]
        omega

/-- The words stay as they are if, and only if, all but the last have their quotes closed. -/
theorem gatherFrom_eq_iff (ws : List (List Char)) :
    ∀ cs, gatherFrom cs ws = cs :: ws ↔ ∀ w ∈ (cs :: ws).dropLast, QuotesClosed w := by
  induction ws with
  | nil => exact fun cs => ⟨fun _ => nofun, fun _ => rfl⟩
  | cons w ws ih =>
      intro cs
      rw [List.dropLast_cons_of_ne_nil (List.cons_ne_nil w ws), List.forall_mem_cons, ← ih w]
      by_cases hclosed : QuotesClosed cs
      · rw [gatherFrom, if_pos hclosed]
        simp [hclosed]
      · have hlength := length_gatherFrom_le ws (cs ++ ',' :: ' ' :: w)
        rw [gatherFrom, if_neg hclosed]
        constructor
        · intro heq
          rw [heq, List.length_cons, List.length_cons] at hlength
          omega
        · intro h
          exact absurd h.1 hclosed

theorem gather_eq_iff (ws : List (List Char)) :
    gather ws = ws ↔ ∀ w ∈ ws.dropLast, QuotesClosed w := by
  cases ws with
  | nil => exact ⟨fun _ => nofun, fun _ => rfl⟩
  | cons w ws => exact gatherFrom_eq_iff ws w

/-! ### Reading -/

/-- The nodes of words on a line, with a comma and a space between them. -/
def wordNodes (line column : Nat) : List (List Char) → List (Rose Label)
  | [] => []
  | w :: ws => leaf (Tag.ofPlain w) w line column :: wordNodes line (column + width w + 2) ws

theorem length_wordNodes (line : Nat) (ws : List (List Char)) :
    ∀ column, (wordNodes line column ws).length = ws.length := by
  induction ws with
  | nil => exact fun _ => rfl
  | cons w ws ih =>
      intro column
      rw [wordNodes, List.length_cons, List.length_cons, ih]

theorem Gathered.readInline_eq {cs : List Char} (h : Gathered cs)
    (hwidth : width cs ≤ maxInlineWidth) (room line column : Nat) :
    readInline (room + 1) line column cs = .ok (leaf (Tag.ofPlain cs) cs line column) := by
  have hstrip : stripComment cs = cs := by
    rw [stripComment_of_not_mem h.comment, h.tight.trimEnd_eq]
  have hopens : Quoted.opens cs = false :=
    Quoted.opens_eq_false fun c hc => h.first c (List.mem_append_left ['{', '['] hc)
  have hbrackets : ∀ c ∈ ['{', '['], cs.head? ≠ some c :=
    fun c hc => h.first c (List.mem_append_right ['"', '\''] hc)
  exact readInline_plain hstrip hopens hbrackets h.tight.trim_eq hwidth room line column

/-- The item of a sequence on that line is the node. -/
def HoldsNode (line : Nat) (node : Rose Label) (item : Item) : Prop := item = ⟨line, [node]⟩

theorem flatMap_of_holdsNode {line : Nat} {nodes : List (Rose Label)} {items : List Item}
    (h : List.Forall₂ (HoldsNode line) nodes items) : items.flatMap Item.nodes = nodes := by
  induction h with
  | nil => rfl
  | cons hfirst _ ih =>
      rw [List.flatMap_cons, hfirst, ih]
      rfl

section Pieces

variable (room line column : Nat)

/-- The node is read from a piece of a sequence that starts at that place. -/
def ReadsWord : Scanner.Piece → Rose Label → Prop :=
  ReadsPiece (flowItem (readInline (room + 1) line) line column) (HoldsNode line)

theorem readsWord {w blanks : List Char} (hblanks : allBlank blanks = true) (hw : Gathered w)
    (hwidth : width w ≤ maxInlineWidth) (offset : Nat) :
    ReadsWord room line column ⟨offset, blanks ++ w⟩
      (leaf (Tag.ofPlain w) w line (column + 1 + offset + width blanks)) := by
  have hall : ∀ c ∈ blanks, isBlank c = true := List.all_eq_true.1 hblanks
  have hstart : trimStart (blanks ++ w) = w := by
    rw [trimStart, List.dropWhile_append_of_pos hall]
    exact hw.tight.trimStart_eq
  have hfront : blankWidth (blanks ++ w) = width blanks := by
    have hshare := blankWidth_add_width_trimStart (blanks ++ w)
    rw [hstart, width_append] at hshare
    omega
  have htrim : trim (blanks ++ w) = w := by rw [trim, hstart, hw.tight.trimEnd_eq]
  refine ⟨hw.tight.allBlank_eq_false htrim, _, ?_, rfl⟩
  simp only [flowItem, hfront, htrim, hw.readInline_eq hwidth]
  rfl

/-- Behind the first word, each has a space in front of it. -/
theorem readsWords_behind {ws : List (List Char)}
    (h : ∀ w ∈ ws, Gathered w ∧ width w ≤ maxInlineWidth) :
    ∀ offset, List.Forall₂ (ReadsWord room line column)
      (Scanner.piecesAt ',' offset (ws.map (' ' :: ·)))
      (wordNodes line (column + 1 + offset + 1) ws) := by
  have hspace : ' '.utf8Size = 1 := rfl
  have hcomma : ','.utf8Size = 1 := rfl
  have hblank : allBlank [' '] = true := rfl
  induction ws with
  | nil => exact fun _ => .nil
  | cons w ws ih =>
      intro offset
      obtain ⟨hw, hwidth⟩ := h w List.mem_cons_self
      have hrest := ih (fun u hu => h u (List.mem_cons_of_mem w hu))
        (offset + width (' ' :: w) + ','.utf8Size)
      have hcolumn : column + 1 + (offset + width (' ' :: w) + ','.utf8Size) + 1 =
          column + 1 + offset + 1 + width w + 2 := by
        rw [width_cons]
        omega
      rw [hcolumn] at hrest
      exact .cons (readsWord room line column hblank hw hwidth offset) hrest

/-- Words are the pieces of their text if they leave no quotes open, but for the last one. -/
theorem readsWords {w : List Char} {ws : List (List Char)} (h : ∀ u ∈ w :: ws, Gathered u)
    (hclosed : ∀ u ∈ (w :: ws).dropLast, QuotesClosed u)
    (hwidth : width (commaJoin (w :: ws)) ≤ maxInlineWidth) :
    List.Forall₂ (ReadsWord room line column) (flowPieces (commaJoin (w :: ws)))
      (wordNodes line (column + 1) (w :: ws)) := by
  have hshort : ∀ u ∈ w :: ws, width u ≤ maxInlineWidth :=
    fun u hu => Nat.le_trans (width_le_commaJoin hu) hwidth
  have hrun : ∀ u ∈ (w :: ws).dropLast, commaScanner.run (.plain, 0) u = some (.plain, 0) := by
    intro u hu
    have hend := (h u (List.dropLast_subset _ hu)).run
    rwa [hclosed u hu] at hend
  have hblank : allBlank [] = true := rfl
  have hfirst := readsWord room line column hblank (h w List.mem_cons_self)
    (hshort w List.mem_cons_self) 0
  have hrest := readsWords_behind room line column (fun u hu =>
    ⟨h u (List.mem_cons_of_mem w hu), hshort u (List.mem_cons_of_mem w hu)⟩)
    (0 + width w + ','.utf8Size)
  have hcomma : ','.utf8Size = 1 := rfl
  have hcolumn : column + 1 + (0 + width w + ','.utf8Size) + 1 = column + 1 + width w + 2 := by
    omega
  rw [hcolumn] at hrest
  rw [flowPieces_commaJoin (fun u hu => ⟨_, (h u hu).run⟩) hrun]
  exact .cons hfirst hrest

theorem flowItems_words {ws : List (List Char)} (h : ∀ w ∈ ws, Gathered w)
    (hclosed : ∀ w ∈ ws.dropLast, QuotesClosed w)
    (hwidth : width (commaJoin ws) ≤ maxInlineWidth) :
    flowItems .flowSequence (flowItem (readInline (room + 1) line) line column) (commaJoin ws) =
      .ok (wordNodes line (column + 1) ws) := by
  cases ws with
  | nil => rfl
  | cons w ws =>
      have hcount := length_le_maxItems (fun u hu => (h u hu).tight.ne_nil) hwidth
      rw [← length_wordNodes line (w :: ws) (column + 1)] at hcount
      have hreads := readsWords room line column h hclosed hwidth
      obtain ⟨items, hholds, hread⟩ := flowItems_of_pieces .flowSequence hreads hcount
      rw [hread, flatMap_of_holdsNode hholds]

end Pieces

/-- The text of a flow sequence of words. -/
def flowLine (ws : List (List Char)) : List Char := '[' :: (commaJoin ws ++ [']'])

/-- A sequence is read as the words that are gathered from it. -/
theorem readInline_flowLine {ws : List (List Char)} (h : ∀ w ∈ ws, FlowWord w)
    (hwidth : width (flowLine ws) ≤ maxInlineWidth) (room line column : Nat) :
    readInline (room + 2) line column (flowLine ws) =
      .ok (.node ⟨.seq, "", line, column⟩ (wordNodes line (column + 1) (gather ws))) := by
  have htight : Tight (flowLine ws) :=
    (tight_singleton (c := '[') rfl).append (tight_singleton (c := ']') rfl)
  have hhash : '#' ∉ commaJoin ws :=
    not_mem_commaJoin (by decide) fun w hw => (h w hw).marks '#' (by simp)
  have hstrip : stripComment (flowLine ws) = flowLine ws := by
    rw [stripComment_of_not_mem (by simp [flowLine, hhash]), htight.trimEnd_eq]
  have hinner : width (commaJoin (gather ws)) ≤ maxInlineWidth := by
    rw [flowLine, width_cons, width_append] at hwidth
    rw [commaJoin_gather]
    omega
  obtain ⟨hgathered, hclosed⟩ := gathered_gather h
  have hitems := flowItems_words room line column hgathered hclosed hinner
  rw [commaJoin_gather] at hitems
  rw [readInline_unquoted hstrip rfl htight.trim_eq hwidth, flowLine]
  simp only [readUnquoted, beforeLast_concat, hitems]
  rfl

/-- The document of words that are the items of a sequence on its first line. -/
def wordDocument (ws : List (List Char)) : Rose Label := .node ⟨.seq, "", 1, 1⟩ (wordNodes 1 2 ws)

theorem wordNodes_injective {line column : Nat} {us ws : List (List Char)}
    (h : wordNodes line column us = wordNodes line column ws) : us = ws := by
  induction us generalizing column ws with
  | nil =>
      cases ws with
      | nil => rfl
      | cons w ws => cases h
  | cons u us ih =>
      cases ws with
      | nil => cases h
      | cons w ws =>
          simp only [wordNodes, leaf, Rose.leaf, List.cons.injEq, Rose.node.injEq, Label.mk.injEq]
            at h
          obtain rfl := String.ofList_injective h.1.1.2.1
          rw [ih h.2]

end Document

open Document

/--
**The items of a flow sequence are gathered from its words**, and they are the words themselves if,
and only if, the quotes in each word but the last are closed.
-/
theorem parse_flowWords {ws : List (List Char)} (h : ∀ w ∈ ws, FlowWord w) {text : String}
    (hline : lines text.toList = [flowLine ws]) (hwidth : width (flowLine ws) ≤ maxInlineWidth) :
    parse text = .ok (.ofRose (wordDocument (gather ws))) ∧
      (parse text = .ok (.ofRose (wordDocument ws)) ↔ ∀ w ∈ ws.dropLast, QuotesClosed w) := by
  have hread : parse text = .ok (.ofRose (wordDocument (gather ws))) := by
    have hwords := readInline_flowLine h hwidth (maxDepth - 2) 1 1
    rw [parse, read_of_bracket .square hline]
    show Except.map _ (readInline (maxDepth - 2 + 2) 1 1 (flowLine ws)) = _
    rw [hwords]
    rfl
  refine ⟨hread, ?_⟩
  rw [← gather_eq_iff, hread]
  constructor
  · intro hsame
    have hroses := Tree.ofRose_injective (Except.ok.inj hsame)
    exact wordNodes_injective (Rose.node.inj hroses).2
  · intro hgather
    rw [hgather]

/-- Quotes that are closed again in the word that opens them, and one that the last word opens. -/
theorem parse_flowWords_quotes :
    parse "[a 'b' c, -1, it's]\n" = .ok (.ofRose (.node ⟨.seq, "", 1, 1⟩
      [.leaf ⟨.str, "a 'b' c", 1, 2⟩, .leaf ⟨.int, "-1", 1, 11⟩, .leaf ⟨.str, "it's", 1, 15⟩])) := by
  have h := @parse_flowWords ["a 'b' c".toList, "-1".toList, "it's".toList] (by decide)
    "[a 'b' c, -1, it's]\n" (by decide) (by decide)
  rw [h.2.2 (by decide)]
  rfl

/-- An apostrophe that takes a comma and the next word into its own. -/
theorem flowWords_apostrophe :
    (∀ w ∈ ["it's".toList, ['b']], FlowWord w) ∧
      lines "[it's, b]".toList = [flowLine ["it's".toList, ['b']]] ∧
      parse "[it's, b]" ≠ .ok (.ofRose (wordDocument ["it's".toList, ['b']])) ∧
      parse "[it's, b]" = .ok (.ofRose (wordDocument ["it's, b".toList])) := by
  have hread : Document.read "[it's, b]".toList = .ok (wordDocument ["it's, b".toList]) := rfl
  refine ⟨by decide, by decide, ?_, congrArg (Except.map Tree.ofRose) hread⟩
  rw [parse, hread]
  intro hsame
  have hroses := Tree.ofRose_injective (Except.ok.inj hsame)
  have hwords := wordNodes_injective (Rose.node.inj hroses).2
  simp at hwords

end YamlDecode
