/-
Plain entries.

A line with a key, a colon and a value is looked at five times: for a dash, for a colon, for a
comment, for the header of a block and for an opening quote or bracket.  Where none of these readers
finds what it looks for, the key and the value are the texts that were written.  What a text needs
for that is said in `PlainKey` and `PlainValue`, in terms of its first characters and of neighbours.

Lines are read one after the other, and none depends on the lines before it; so the induction goes
over any entries with any numbers, and only in the end are these the lines of a document.
-/
import YamlDecode.Proofs.Document.Block
import YamlDecode.Proofs.Text.Plain

namespace YamlDecode.Document

open YamlDecode.Text

/-- A text that fits on a line, has no blanks around it, and holds no comment. -/
structure PlainText (cs : List Char) : Prop where
  tight : Tight cs
  newline : '\n' ∉ cs
  comment : NoComment cs

/-- The characters that mean something in front of a key. -/
def keyMarks : List Char := ['"', '\'', '{', '[', '#']

/-- The characters that mean something in front of a value. -/
def valueMarks : List Char := ['"', '\'', '{', '[', '|', '>', '#']

/-- What can be the key of an entry without quotes. -/
structure PlainKey (cs : List Char) : Prop extends PlainText cs where
  first : ∀ c ∈ keyMarks, cs.head? ≠ some c
  dash : ¬['-', ' '] <+: cs
  colon : NoKeyEnd cs

/-- What can be the value of an entry without quotes. -/
structure PlainValue (cs : List Char) : Prop extends PlainText cs where
  first : ∀ c ∈ valueMarks, cs.head? ≠ some c
  short : width cs ≤ maxInlineWidth

instance : DecidablePred PlainText := fun cs =>
  decidable_of_iff (Tight cs ∧ '\n' ∉ cs ∧ NoComment cs)
    ⟨fun ⟨tight, newline, comment⟩ => ⟨tight, newline, comment⟩,
      fun h => ⟨h.tight, h.newline, h.comment⟩⟩

-- The marks are gone through one by one, and not all characters there are.
instance : DecidablePred PlainKey := fun cs =>
  have : Decidable (∀ c ∈ keyMarks, cs.head? ≠ some c) := List.decidableBAll _ _
  decidable_of_iff (PlainText cs ∧ (∀ c ∈ keyMarks, cs.head? ≠ some c) ∧ ¬['-', ' '] <+: cs ∧
      NoKeyEnd cs)
    ⟨fun ⟨text, first, dash, colon⟩ => ⟨text, first, dash, colon⟩,
      fun h => ⟨h.toPlainText, h.first, h.dash, h.colon⟩⟩

instance : DecidablePred PlainValue := fun cs =>
  have : Decidable (∀ c ∈ valueMarks, cs.head? ≠ some c) := List.decidableBAll _ _
  decidable_of_iff (PlainText cs ∧ (∀ c ∈ valueMarks, cs.head? ≠ some c) ∧
      width cs ≤ maxInlineWidth)
    ⟨fun ⟨text, first, short⟩ => ⟨text, first, short⟩,
      fun h => ⟨h.toPlainText, h.first, h.short⟩⟩

namespace PlainKey

variable {key : List Char}

/-! ### What the readers find of a key -/

/-- The line does not start an item of a sequence: there is no space behind the dash. -/
theorem isItem_eq (h : PlainKey key) (rest : List Char) : isItem (key ++ ':' :: rest) = false := by
  have hdash := h.dash
  have hne := h.tight.ne_nil
  rcases key with - | ⟨c, - | ⟨d, key⟩⟩
  · exact absurd rfl hne
  · simp [isItem]
  · unfold isItem
    split
    · next heq => simp at heq
    · next heq =>
      simp only [List.cons_append, List.cons.injEq] at heq
      obtain ⟨rfl, rfl, -⟩ := heq
      exact absurd ⟨key, rfl⟩ hdash
    · rfl

theorem blockColon_eq (h : PlainKey key) {rest : List Char} (hrest : atBlank rest = true) :
    blockColon (key ++ ':' :: rest) = some (key, rest) :=
  h.colon.blockColon_eq h.comment h.tight.ne_nil h.first hrest

theorem readKey_eq (h : PlainKey key) (line column : Nat) :
    readKey line column key = .ok (leaf (Tag.ofPlain key) key line column) := by
  have hquotes : ∀ c ∈ ['"', '\''], key.head? ≠ some c :=
    fun c hc => h.first c (List.mem_append_left ['{', '[', '#'] hc)
  have hempty : key.isEmpty = false := List.isEmpty_eq_false_iff.2 h.tight.ne_nil
  unfold readKey
  simp only [h.tight.trim_eq, Quoted.opens_eq_false hquotes, hempty]
  rfl

/-- Where a value starts that ends the line, with a space behind the colon. -/
theorem columnOf_value (key value : List Char) (number : Nat) :
    Line.columnOf ⟨number, 0, key ++ ':' :: ' ' :: value⟩ value = width key + 3 := by
  have hcolon : ':'.utf8Size = 1 := rfl
  have hspace : ' '.utf8Size = 1 := rfl
  have hwidth : width (key ++ ':' :: ' ' :: value) = width key + (2 + width value) := by
    rw [width_append, width_cons, width_cons]
    omega
  show 0 + width (key ++ ':' :: ' ' :: value) - width value + 1 = _
  omega

/-- An entry is read if its value is. -/
theorem nextEntry_eq (h : PlainKey key) {value : List Char} {inner : Readers} {number : Nat}
    {node : Rose Label} {ls after : List Line}
    (hshows : (⟨number, 0, key ++ ':' :: ' ' :: value⟩ : Line).Shows
      ⟨0, key ++ ':' :: ' ' :: value⟩)
    (htrim : trimStart value = value)
    (hnode : readValue inner true number 0 (width key + 3) value ls = .ok (node, after)) :
    nextEntry inner 0 (⟨number, 0, key ++ ':' :: ' ' :: value⟩ :: ls) =
      .ok (some (⟨number, [leaf (Tag.ofPlain key) key number 1, node]⟩, after)) := by
  have htail : trimStart (' ' :: value) = value := htrim
  refine nextEntry_of_key hshows (h.isItem_eq _) (h.blockColon_eq rfl) (h.readKey_eq number 1) ?_
  rw [htail, columnOf_value]
  exact hnode

end PlainKey

/-- A plain value is read, with whatever stands behind it on its line, for what is left without
a comment. -/
theorem PlainValue.readValue_eq {value behind kept content : List Char} (h : PlainValue value)
    (htrim : trim (value ++ behind) = value ++ kept)
    (hstrip : stripComment (value ++ kept) = content) (hcontent : value <+: content)
    (hwidth : width (value ++ behind) ≤ maxInlineWidth) (room line indent column : Nat)
    (ls : List Line) :
    readValue (readers (room + 1)) true line indent column (value ++ behind) ls =
      .ok (leaf (Tag.ofPlain content) content line column, ls) := by
  obtain ⟨c, rest, rfl, hblank⟩ := h.tight.first
  obtain ⟨more, rfl⟩ := hcontent
  have hne : ∀ d ∈ valueMarks, c ≠ d := by simpa using h.first
  have hmarks : headMarks ⊆ valueMarks := by decide
  have hhead : c ∉ headMarks := fun hc => hne c (hmarks hc) rfl
  have hopens : Quoted.opens (c :: rest ++ kept) = false := by
    simp [Quoted.opens, hne '"' (by decide), hne '\'' (by decide)]
  have hbrackets : ∀ d ∈ ['{', '['], (c :: rest ++ more).head? ≠ some d := by
    simp [hne '{' (by decide), hne '[' (by decide)]
  exact readValue_of_inline hblank hhead
    (readInline_plain hstrip hopens hbrackets htrim hwidth room line column) true indent ls

/-- An entry of a mapping, as it is written. -/
structure PlainEntry where
  key : List Char
  value : List Char

namespace PlainEntry

/-- The key and the value are plain. -/
structure Sound (e : PlainEntry) : Prop where
  key : PlainKey e.key
  value : PlainValue e.value

instance : DecidablePred Sound := fun e =>
  decidable_of_iff (PlainKey e.key ∧ PlainValue e.value)
    ⟨fun ⟨key, value⟩ => ⟨key, value⟩, fun h => ⟨h.key, h.value⟩⟩

/-- The entry on a line, with a colon and a space between its key and its value. -/
def row (e : PlainEntry) : Row := ⟨0, e.key ++ ':' :: ' ' :: e.value⟩

/-- The nodes of the entry on a line of that number. -/
def nodes (e : PlainEntry) (line : Nat) : List (Rose Label) :=
  [leaf (Tag.ofPlain e.key) e.key line 1,
    leaf (Tag.ofPlain e.value) e.value line (width e.key + 3)]

variable {e : PlainEntry}

/-! ### One entry -/

theorem Sound.rowSound (h : e.Sound) : e.row.Sound where
  tight := by
    have htight : Tight (e.key ++ ([':', ' '] ++ e.value)) := h.key.tight.append h.value.tight
    exact htight
  newline := by simp [row, h.key.newline, h.value.newline]
  comment := by
    have hhash := h.key.first '#' (by decide)
    rwa [row, List.head?_append_of_ne_nil _ h.key.tight.ne_nil]

theorem Sound.readValue_eq (h : e.Sound) (room line indent column : Nat) (ls : List Line) :
    readValue (readers (room + 1)) true line indent column e.value ls =
      .ok (leaf (Tag.ofPlain e.value) e.value line column, ls) := by
  have hstrip := h.value.comment.stripComment_eq h.value.tight (h.value.first '#' (by decide))
  have hread := @PlainValue.readValue_eq e.value [] [] e.value h.value
  simp only [List.append_nil] at hread
  exact hread h.value.tight.trim_eq hstrip (List.prefix_refl _) h.value.short room line indent
    column ls

/-- The line of an entry at that place of a document, counted from zero. -/
def line (e : PlainEntry) (i : Nat) : Line := ⟨i + 1, 0, e.row.line⟩

theorem Sound.shows (h : e.Sound) (i : Nat) : (e.line i).Shows ⟨0, e.row.text⟩ :=
  h.rowSound.shows (i + 1)

theorem Sound.nextEntry_eq (h : e.Sound) (room i : Nat) (ls : List Line) :
    nextEntry (readers (room + 1)) 0 (e.line i :: ls) =
      .ok (some (⟨i + 1, e.nodes (i + 1)⟩, ls)) :=
  h.key.nextEntry_eq (h.shows i) h.value.tight.trimStart_eq
    (h.readValue_eq room (i + 1) 0 (width e.key + 3) ls)

end PlainEntry

/-! ### All entries -/

theorem reads_plainEntries (room : Nat) {entries : List (PlainEntry × Nat)}
    (h : ∀ x ∈ entries, x.1.Sound) :
    Reads (nextEntry (readers (room + 1)) 0) (fun x item => ⟨x.2 + 1, x.1.nodes (x.2 + 1)⟩ = item)
      (entries.map fun x => x.1.line x.2) entries [] := by
  induction entries with
  | nil => exact .nil rfl
  | cons x entries ih =>
      have hx := h x List.mem_cons_self
      exact .cons (hx.nextEntry_eq room x.2 _) rfl (ih fun y hy => h y (List.mem_cons_of_mem x hy))

theorem readBlock_plain (room : Nat) {first : PlainEntry × Nat}
    {entries : List (PlainEntry × Nat)} (h : ∀ x ∈ first :: entries, x.1.Sound)
    (hcount : (first :: entries).length ≤ maxItems) :
    readBlock (readers (room + 1)) 0 ((first :: entries).map fun x => x.1.line x.2) =
      .ok (.node ⟨.map, "", first.2 + 1, 1⟩
        ((first :: entries).flatMap fun x => x.1.nodes (x.2 + 1)), []) := by
  obtain ⟨items, hholds, hread⟩ := (reads_plainEntries room h).readItems
  have hitems : (first :: entries).map (fun x => (⟨x.2 + 1, x.1.nodes (x.2 + 1)⟩ : Item)) = items := by
    rw [← List.forall₂_eq_eq_eq]
    exact List.forall₂_map_left_iff.2 hholds
  have hnodes := hread .blockMapping maxItems [] hcount
  rw [← hitems, List.flatMap_map] at hnodes
  have hfirst := h first List.mem_cons_self
  have hitem : isItem first.1.row.text = false := hfirst.key.isItem_eq _
  have hcolon : blockColon first.1.row.text = some (first.1.key, ' ' :: first.1.value) :=
    hfirst.key.blockColon_eq rfl
  rw [List.map_cons, readBlock_cons (hfirst.shows first.2), hitem, hcolon]
  show readMapping _ 0 ((first :: entries).map fun x => x.1.line x.2) = _
  unfold readMapping
  rw [hnodes]
  rfl

end YamlDecode.Document

namespace YamlDecode

open YamlDecode.Document

/--
**Plain entries are taken verbatim.**

A document with a plain key and a plain value on each of its lines is a mapping of exactly these
keys and values, in their order.  An entry is on the line of its number, its key in the first column,
and both of its texts have the tags of plain words.
-/
theorem parse_plain {entries : List PlainEntry} {text : String} (hne : entries ≠ [])
    (hcount : entries.length ≤ maxItems) (h : ∀ e ∈ entries, e.Sound)
    (htext : WrittenIn (entries.map PlainEntry.row) text.toList) :
    parse text = .ok (.ofRose (.node ⟨.map, "", 1, 1⟩
      (entries.zipIdx.flatMap fun (e, i) => e.nodes (i + 1)))) := by
  obtain ⟨first, rest, rfl⟩ := List.exists_cons_of_ne_nil hne
  have hsound : ∀ r ∈ (first :: rest).map PlainEntry.row, r.Sound := by
    intro r hr
    obtain ⟨e, he, rfl⟩ := List.mem_map.1 hr
    exact (h e he).rowSound
  have hlines : linesOf text.toList = (first :: rest).zipIdx.map fun x => x.1.line x.2 := by
    rw [linesOf_written (by simp) hsound htext, List.zipIdx_map, List.map_map]
    rfl
  have hentries : ∀ x ∈ (first :: rest).zipIdx, x.1.Sound := by
    intro x hx
    exact h x.1 (List.fst_mem_of_mem_zipIdx hx)
  have hmark : first.row.text ≠ ['-', '-', '-'] := by
    intro hmark
    have hcolon : ':' ∈ first.row.text := by simp [PlainEntry.row]
    rw [hmark] at hcolon
    exact absurd hcolon (by decide)
  have hrows : ((first :: rest).map PlainEntry.row).length ≤ maxLines := by
    rw [List.length_map]
    exact Nat.le_trans hcount (by decide)
  have hlength : (first :: rest).zipIdx.length ≤ maxItems := by rwa [List.length_zipIdx]
  have hblock := readBlock_plain (maxDepth - 1) hentries hlength
  rw [← List.zipIdx_cons, ← hlines] at hblock
  rw [parse, read_of_rows hsound hmark hrows htext hblock]
  rfl

/-- Quotes, brackets, colons and comment signs inside the texts, and dashes without a space. -/
theorem parse_plain_colons :
    parse "it's: http://x:80/#a\n-b::c: - \"[d\n" = .ok (.ofRose (.node ⟨.map, "", 1, 1⟩
      [.leaf ⟨.str, "it's", 1, 1⟩, .leaf ⟨.str, "http://x:80/#a", 1, 7⟩,
        .leaf ⟨.str, "-b::c", 2, 1⟩, .leaf ⟨.str, "- \"[d", 2, 8⟩])) := by
  have h := @parse_plain
    [⟨"it's".toList, "http://x:80/#a".toList⟩, ⟨"-b::c".toList, "- \"[d".toList⟩]
    "it's: http://x:80/#a\n-b::c: - \"[d\n" (by decide) (by decide) (by decide) (.inr (by decide))
  rw [h]
  rfl

end YamlDecode
