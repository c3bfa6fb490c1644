/-
Comments behind plain values.

An entry with a comment behind its value is read as the entry without it, provided that the quotes
inside the value are closed.  If they are not, as behind an apostrophe, the comment is not seen, and
it is read as part of the value.

Either way the line holds a plain key and some text, and what is read is the key and the content of
that text, which is what `stripComment` leaves of it.  So the two cases differ in nothing but that.
-/
import YamlDecode.Proofs.Document.Plain
import YamlDecode.Proofs.Text.OpenQuotes
import YamlDecode.Proofs.Tree.Graft

namespace YamlDecode

open YamlDecode.Text

namespace Document.PlainEntry

/-- The document of the entry alone, on its first line. -/
def document (e : PlainEntry) : Rose Label := .node ⟨.map, "", 1, 1⟩ (e.nodes 1)

/-- The entry with a comment behind its value. -/
def withComment (e : PlainEntry) (comment : List Char) : List Char :=
  e.row.text ++ ' ' :: '#' :: comment

/-- The entry with more text behind its value. -/
def extend (e : PlainEntry) (more : List Char) : PlainEntry := ⟨e.key, e.value ++ more⟩

variable {e : PlainEntry}

theorem eq_of_document_eq {more : List Char} (h : (e.extend more).document = e.document) :
    more = [] := by
  have hvalue : String.ofList (e.value ++ more) = String.ofList e.value := by
    simp only [document, nodes, leaf, Rose.leaf, Rose.node.injEq, Label.mk.injEq,
      List.cons.injEq] at h
    exact h.2.2.1.1.2.1
  simpa using String.ofList_injective hvalue

/-! ### One line -/

/-- A line with a plain key is the document of its entry, if the value is read. -/
theorem read_of_value {key value content text : List Char} (hkey : PlainKey key)
    (hline : lines text = [key ++ ':' :: ' ' :: value]) (htrim : trimStart value = value)
    (hvalue : ∀ room, readValue (readers (room + 1)) true 1 0 (width key + 3) value [] =
      .ok (leaf (Tag.ofPlain content) content 1 (width key + 3), [])) :
    Document.read text = .ok (document ⟨key, content⟩) := by
  obtain ⟨c, rest, hcons, hblank⟩ := hkey.tight.first
  have hhash : c ≠ '#' := by
    rintro rfl
    exact hkey.first '#' (by decide) (by rw [hcons]; rfl)
  have hshows : (⟨1, 0, key ++ ':' :: ' ' :: value⟩ : Line).Shows
      ⟨0, key ++ ':' :: ' ' :: value⟩ := by
    rw [hcons]
    exact shows_flush hblank hhash 1 _
  have hmark : trim (key ++ ':' :: ' ' :: value) ≠ ['-', '-', '-'] := by
    intro hmark
    have hkept : ':' ∈ trim (key ++ ':' :: ' ' :: value) := by
      rw [trim, hkey.tight.trimStart_append, trimEnd_append_of_last rfl]
      simp
    rw [hmark] at hkept
    exact absurd hkept (by decide)
  have hentry := hkey.nextEntry_eq hshows htrim (hvalue (maxDepth - 1))
  have hreads : Reads (nextEntry (readers maxDepth) 0) Eq [⟨1, 0, key ++ ':' :: ' ' :: value⟩]
      [⟨1, (⟨key, content⟩ : PlainEntry).nodes 1⟩] [] := .cons hentry rfl (.nil rfl)
  obtain ⟨items, hitems, hread⟩ := hreads.readItems
  rw [List.forall₂_eq_eq_eq] at hitems
  subst hitems
  refine read_of_line hline hshows hmark ?_
  show readBlock (readers maxDepth) 0 _ = _
  rw [readBlock_cons hshows, hkey.isItem_eq, hkey.blockColon_eq rfl]
  show readMapping (readers maxDepth) 0 _ = _
  unfold readMapping
  rw [hread .blockMapping maxItems [] (show 1 ≤ maxItems by decide)]
  rfl

theorem Sound.read_bare (h : e.Sound) {text : List Char} (hline : lines text = [e.row.text]) :
    Document.read text = .ok e.document :=
  read_of_value h.key hline h.value.tight.trimStart_eq fun room =>
    h.readValue_eq room 1 0 (width e.key + 3) []

/-- With a comment behind it, the value is what is left when that is stripped. -/
theorem Sound.read_withComment (h : e.Sound) {text comment content : List Char}
    (hline : lines text = [e.withComment comment])
    (hwidth : width (e.value ++ ' ' :: '#' :: comment) ≤ maxInlineWidth)
    (hstrip : stripComment (e.value ++ ' ' :: '#' :: trimEnd comment) = content)
    (hcontent : e.value <+: content) : Document.read text = .ok (document ⟨e.key, content⟩) := by
  have hstart := h.value.tight.trimStart_append (' ' :: '#' :: comment)
  have htrim : trim (e.value ++ ' ' :: '#' :: comment) =
      e.value ++ ' ' :: '#' :: trimEnd comment := by
    have hblank : isBlank '#' = false := rfl
    have hend := trimEnd_append_of_last hblank (e.value ++ [' ']) comment
    rw [trim, hstart]
    simpa using hend
  refine read_of_value h.key ?_ hstart fun room =>
    h.value.readValue_eq htrim hstrip hcontent hwidth room 1 0 (width e.key + 3) []
  rw [hline, withComment, row]
  simp

end Document.PlainEntry

open Document

/--
**A comment behind a plain value is taken off if, and only if, the quotes in the value are closed.**

If they are not, the comment sign is read as part of the value.
-/
theorem parse_withComment {e : PlainEntry} (h : e.Sound) {comment : List Char}
    {bare commented : String} (hbare : lines bare.toList = [e.row.text])
    (hcommented : lines commented.toList = [e.withComment comment])
    (hwidth : width (e.value ++ ' ' :: '#' :: comment) ≤ maxInlineWidth) :
    (parse commented = parse bare ↔ QuotesClosed e.value) ∧
      (¬QuotesClosed e.value → ∃ more,
        parse commented = .ok (.ofRose (e.extend (' ' :: '#' :: more)).document)) := by
  have hfirst := h.value.first '#' (by decide)
  have hread : parse bare = .ok (.ofRose e.document) := by
    rw [parse, h.read_bare hbare]
    rfl
  have hclosed : QuotesClosed e.value → parse commented = parse bare := by
    intro hclosed
    have hstrip := h.value.comment.stripComment_closed h.value.tight hfirst hclosed
      (trimEnd comment)
    rw [hread, parse, h.read_withComment hcommented hwidth hstrip (List.prefix_refl _)]
    rfl
  have hopen : ¬QuotesClosed e.value → ∃ more,
      parse commented = .ok (.ofRose (e.extend (' ' :: '#' :: more)).document) := by
    intro hopen
    obtain ⟨more, hstrip⟩ := h.value.comment.stripComment_open hfirst hopen (trimEnd comment)
    refine ⟨more, ?_⟩
    rw [parse, h.read_withComment hcommented hwidth hstrip (List.prefix_append _ _)]
    rfl
  refine ⟨⟨?_, hclosed⟩, hopen⟩
  intro hsame
  by_contra hquotes
  obtain ⟨more, hmore⟩ := hopen hquotes
  rw [hsame, hread] at hmore
  have hdocument := Tree.ofRose_injective (Except.ok.inj hmore)
  exact List.cons_ne_nil _ _ (PlainEntry.eq_of_document_eq hdocument.symm)

/-- Behind quotes that are closed again, in a value that also holds a blank and a colon. -/
theorem parse_withComment_quotes :
    QuotesClosed "a 'b: c'".toList ∧ parse "k: a 'b: c' # d'e" = parse "k: a 'b: c'\n" := by
  have hclosed : QuotesClosed "a 'b: c'".toList := by decide
  have h := @parse_withComment ⟨['k'], "a 'b: c'".toList⟩ (by decide) " d'e".toList
    "k: a 'b: c'\n" "k: a 'b: c' # d'e" (by decide) (by decide) (by decide)
  exact ⟨hclosed, h.1.2 hclosed⟩

/-- A comment that is read as part of the value, since an apostrophe stands in front of it. -/
theorem withComment_apostrophe :
    (⟨['k'], "it's".toList⟩ : PlainEntry).Sound ∧ '#' ∉ "it's".toList ∧
      parse "k: it's # c" ≠ parse "k: it's" ∧
      parse "k: it's # c" = .ok (.ofRose (.node ⟨.map, "", 1, 1⟩
        [.leaf ⟨.str, "k", 1, 1⟩, .leaf ⟨.str, "it's # c", 1, 4⟩])) := by
  have hread : Document.read "k: it's # c".toList = .ok (.node ⟨.map, "", 1, 1⟩
      [.leaf ⟨.str, "k", 1, 1⟩, .leaf ⟨.str, "it's # c", 1, 4⟩]) := rfl
  have hbare : Document.read "k: it's".toList = .ok (.node ⟨.map, "", 1, 1⟩
      [.leaf ⟨.str, "k", 1, 1⟩, .leaf ⟨.str, "it's", 1, 4⟩]) := rfl
  refine ⟨by decide, by decide, ?_, congrArg (Except.map Tree.ofRose) hread⟩
  rw [parse, parse, hread, hbare]
  intro hsame
  have hroses := Tree.ofRose_injective (Except.ok.inj hsame)
  simp [Rose.leaf] at hroses

end YamlDecode
