/-
What of a document stands in a message as it is.

Messages quote a repeated key, and a line feed in it is then written as an escape.  The key of an
unknown field and the text of a scalar that does not fit are shown as they stand, and a scalar in
double quotes can have any character in it.  `verbatim` is that text; of a long scalar it is the
first few characters.

If the texts of a target have no line feeds then all line feeds of a message are in its verbatim
text: `Framed` says that this stands between two pieces without any.  So messages are one line
each, and a report has a line for each error and one for its header, up to the line feeds that
come from the document.
-/
import YamlDecode.Proofs.Decode.Rendering
import YamlDecode.Proofs.Number.Numeral
import YamlDecode.Proofs.Target.Texts
import YamlDecode.Proofs.Text.Quoted

namespace YamlDecode

open YamlDecode.Tree
open YamlDecode.Text (lines lines_append_newline lines_of_no_newline)

variable {t : Tree}

/-! ### Texts on one line -/

/-- The text has no line feed. -/
def OneLine (s : String) : Prop := '\n' ∉ s.toList

instance (s : String) : Decidable (OneLine s) := inferInstanceAs (Decidable ('\n' ∉ s.toList))

@[simp] theorem oneLine_append {a b : String} : OneLine (a ++ b) ↔ OneLine a ∧ OneLine b := by
  simp [OneLine]

@[simp] theorem oneLine_repr (n : Nat) : OneLine n.repr := by
  intro h
  have hdigit : '\n'.isDigit = true := isDigit_of_mem_toDigits (n := n) (by simpa using h)
  cases hdigit

@[simp] theorem oneLine_quote (s : String) : OneLine (quote s) := by
  rw [OneLine, quote, String.toList_ofList]
  exact Text.Quoted.newline_not_mem_write s.toList

@[simp] theorem oneLine_short (tag : Tag) : OneLine tag.short := by
  cases tag <;> decide

/-- No name, key or alias of the target has a line feed. -/
def Target.OneLine (target : Target) : Prop := ∀ s ∈ target.texts, YamlDecode.OneLine s

instance (target : Target) : Decidable target.OneLine :=
  inferInstanceAs (Decidable (∀ s ∈ target.texts, YamlDecode.OneLine s))

/-! ### Parts of a target -/

theorem Target.Part.texts_subset {whole target : Target} (h : whole.Part target) :
    target.texts ⊆ whole.texts := by
  induction h with
  | self => exact List.Subset.refl _
  | element _ hshape ih => exact List.Subset.trans (texts_of_shape hshape) ih
  | key _ hshape ih =>
      exact List.Subset.trans (List.append_subset.1 (texts_of_shape hshape)).1 ih
  | value _ hshape ih =>
      exact List.Subset.trans (List.append_subset.1 (texts_of_shape hshape)).2 ih
  | field _ hlayout hbinds ih =>
      exact List.Subset.trans (Layout.texts_of_lookup hlayout hbinds).2 ih

/-! ### What messages show -/

/-- What a message shows of the text of a scalar. -/
def excerpt (value : String) : String :=
  if 10 < value.length then String.ofList (value.toList.take 7) else value

/-- What the message shows of the document as it stands there.  The name of a field that is bound
twice is not counted in, since it is a text of the target as well. -/
def TextError.verbatim (x : TextError t) : String :=
  match x.cause with
  | .unknownField => x.node.value
  | .keyAlreadyDefined => ""
  | .wrongType => if x.node.tag.isContainer then "" else excerpt x.node.value

def DecodeError.verbatim (e : DecodeError t) : String :=
  (e.text?.map TextError.verbatim).getD ""

/-- The message shows a text between pieces without line feeds, and not at its end. -/
def Framed (shown message : String) : Prop :=
  ∃ front back, message = front ++ shown ++ back ∧ OneLine front ∧ OneLine back ∧ back ≠ ""

theorem Framed.of_oneLine {message : String} (h : OneLine message) (hne : message ≠ "") :
    Framed "" message := ⟨"", message, by simp, by decide, h, hne⟩

/-- A message starts with the line of the node. -/
theorem Framed.behind {shown message front : String} (h : Framed shown message)
    (hfront : OneLine front) : Framed shown (front ++ message) := by
  obtain ⟨front', back, rfl, hfront', hback, hne⟩ := h
  refine ⟨front ++ front', back, ?_, oneLine_append.2 ⟨hfront, hfront'⟩, hback, hne⟩
  simp only [String.append_assoc]

theorem framed_snippet (tag : Tag) (value : String) {rest : String} (h : OneLine rest)
    (hne : rest ≠ "") :
    Framed (if tag.isContainer then "" else excerpt value) (valueSnippet tag value ++ rest) := by
  unfold valueSnippet excerpt
  split
  · exact .of_oneLine (by simpa using h) (by simpa using hne)
  · split
    · exact ⟨" `", "...`" ++ rest, by simp [String.append_assoc], by decide,
        by simpa [h] using by decide, by simp⟩
    · exact ⟨" `", "`" ++ rest, by simp [String.append_assoc], by decide,
        by simpa [h] using by decide, by simp⟩

theorem nonEmpty_getD (s : String) : (nonEmpty s).getD "" = s := by
  unfold nonEmpty
  split
  · next h => exact (String.isEmpty_iff.1 h).symm
  · rfl

/-! ### Messages -/

/-- A message starts with a line number. -/
theorem framed_line (line : Nat) {shown remark : String} (h : Framed shown remark) :
    Framed shown ("line " ++ toString line ++ ": " ++ remark) :=
  h.behind (by simpa using by decide)

theorem framed_repeated (node : Label) (target : Target) {details : List (String × String)}
    (hprior : OneLine ((details.lookup priorLine).getD "")) :
    Framed "" (render .keyAlreadyDefined node none target details) := by
  refine framed_line node.line (.of_oneLine ?_ (by simp))
  simpa [hprior] using by decide

section Render

variable (node : Label) {target : Target} (htarget : OneLine target.name)
  (details : List (String × String))

include htarget

theorem framed_unknownField (name : Option String) :
    Framed (name.getD "") (render .unknownField node name target details) := by
  refine framed_line node.line
    ⟨"field ", " not found in type " ++ target.name, ?_, by decide, ?_, by simp⟩
  · simp [String.append_assoc]
  · simpa [htarget] using by decide

theorem framed_alreadySet {name : String} (hname : OneLine name) :
    Framed "" (render .keyAlreadyDefined node (some name) target details) := by
  refine framed_line node.line (.of_oneLine ?_ (by simp))
  simpa [hname, htarget] using by decide

theorem framed_wrongType (name : Option String) :
    Framed (if node.tag.isContainer then "" else excerpt node.value)
      (render .wrongType node name target details) := by
  have hfront : OneLine ("cannot unmarshal " ++ node.tag.short) := by simpa using by decide
  have hsnippet : Framed (if node.tag.isContainer then "" else excerpt node.value)
      (valueSnippet node.tag node.value ++ (" into " ++ target.name)) :=
    framed_snippet node.tag node.value (by simpa [htarget] using by decide) (by simp)
  simpa only [render, String.append_assoc] using framed_line node.line (hsnippet.behind hfront)

end Render

theorem framed_defect {d : Defect} (h : ∀ s ∈ d.texts, OneLine s) : Framed "" d.message := by
  cases d with
  | duplicatedKey text typeName =>
      obtain ⟨htext, htype⟩ : OneLine text ∧ OneLine typeName := by simpa [Defect.texts] using h
      show Framed "" ("duplicated key '" ++ text ++ "' in struct " ++ typeName)
      refine .of_oneLine ?_ (by simp)
      simpa [htext, htype] using by decide
  | inlineNotStruct text typeName =>
      obtain ⟨htext, htype⟩ : OneLine text ∧ OneLine typeName := by simpa [Defect.texts] using h
      show Framed ""
        ("option inline needs a struct value field: " ++ text ++ " in struct " ++ typeName)
      refine .of_oneLine ?_ (by simp)
      simpa [htext, htype] using by decide

/-- Whatever the origin of an error, line feeds in its message are the document's. -/
theorem Origin.framed {whole : Target} {e : DecodeError t} (h : Origin whole e)
    (hwhole : whole.OneLine) : Framed e.verbatim e.message := by
  have hname : ∀ target, whole.Part target → OneLine target.name :=
    fun target hpart => hwhole _ (hpart.texts_subset target.name_mem_texts)
  cases h with
  | @misfit r target part => exact framed_wrongType r.label (hname target part) [] none
  | @unknownKey m key target layout part laidOut isKey free =>
      have h := framed_unknownField key.label (hname target part) [] (nonEmpty key.value)
      rw [nonEmpty_getD] at h
      exact h
  | @boundBefore m first key target layout slot part laidOut distinct order slotOf binds =>
      -- A key that binds a field is a text of the target.
      have hkey : OneLine key.value :=
        hwhole _ (part.texts_subset (Layout.texts_of_lookup laidOut slotOf).1)
      show Framed "" (render .keyAlreadyDefined key.label (nonEmpty key.value) target
        [(priorLine, toString first.line)])
      unfold nonEmpty
      split
      · exact framed_repeated key.label target (by simp)
      · exact framed_alreadySet key.label (hname target part) _ hkey
  | @clash m first key target part repeated => exact framed_repeated key.label target (by simp)
  | @defect target d part fails =>
      exact framed_defect fun s hs => hwhole s (part.texts_subset (Defect.texts_of_layout fails hs))

/-! ### Lines of a report -/

/-- How many line feeds the text has. -/
def feeds (s : String) : Nat := s.toList.count '\n'

theorem feeds_append (a b : String) : feeds (a ++ b) = feeds a + feeds b := by
  rw [feeds, String.toList_append, List.count_append, feeds, feeds]

theorem feeds_eq_zero {s : String} : feeds s = 0 ↔ OneLine s := List.count_eq_zero

/-- The text goes on behind its last line feed. -/
def Continues (s : String) : Prop := ∃ front back, s = front ++ back ∧ OneLine back ∧ back ≠ ""

theorem Continues.behind {s : String} (h : Continues s) (front : String) :
    Continues (front ++ s) := by
  obtain ⟨front', back, rfl, hback, hne⟩ := h
  exact ⟨front ++ front', back, (String.append_assoc ..).symm, hback, hne⟩

theorem Framed.continues {shown message : String} (h : Framed shown message) :
    Continues message := by
  obtain ⟨front, back, rfl, -, hback, hne⟩ := h
  exact ⟨front ++ shown, back, rfl, hback, hne⟩

theorem Framed.feeds_eq {shown message : String} (h : Framed shown message) :
    feeds message = feeds shown := by
  obtain ⟨front, back, rfl, hfront, hback, -⟩ := h
  rw [feeds_append, feeds_append, feeds_eq_zero.2 hfront, feeds_eq_zero.2 hback]
  omega

/-- `front` is what has been read of a line. -/
theorem length_lines_append {back : List Char} (hback : '\n' ∉ back) (hne : back ≠ []) :
    ∀ (cs front : List Char), '\n' ∉ front →
      (lines (front ++ (cs ++ back))).length = cs.count '\n' + 1
  | [], front, hfront => by
      rw [List.nil_append, lines_of_no_newline _ (by simp [hfront, hback]) (by simp [hne])]
      rfl
  | c :: cs, front, hfront => by
      by_cases hc : c = '\n'
      · subst hc
        rw [List.cons_append, lines_append_newline front _ hfront, List.length_cons,
          ← List.nil_append (cs ++ back), length_lines_append hback hne cs [] nofun,
          List.count_cons_self]
      · have hmore : '\n' ∉ front ++ [c] := by simp [hfront, Ne.symm hc]
        rw [List.cons_append, List.append_cons, length_lines_append hback hne cs _ hmore,
          List.count_cons_of_ne hc]

theorem Continues.length_lines {s : String} (h : Continues s) :
    (lines s.toList).length = feeds s + 1 := by
  obtain ⟨front, back, rfl, hback, hne⟩ := h
  have hlines := length_lines_append hback (by simpa using hne) front.toList [] nofun
  rw [feeds_append, feeds_eq_zero.2 hback, String.toList_append]
  exact hlines

theorem feeds_join_messages (es : List (DecodeError t)) :
    feeds (String.join (es.map fun e => "\n  " ++ e.message)) =
      es.length + (es.map fun e => feeds e.message).sum := by
  induction es with
  | nil => rfl
  | cons e rest ih =>
      have hstart : feeds "\n  " = 1 := by decide
      rw [List.map_cons, String.join_cons, feeds_append, feeds_append, ih, hstart, List.length_cons,
        List.map_cons, List.sum_cons]
      omega

theorem feeds_report (es : List (DecodeError t)) :
    feeds (report es) = es.length + (es.map fun e => feeds e.message).sum := by
  have hheader : feeds "yaml: unmarshal errors:" = 0 := by decide
  rw [report_eq, String.join_cons, feeds_append, feeds_join_messages, hheader, Nat.zero_add]

theorem continues_report {es : List (DecodeError t)} (h : ∀ e ∈ es, Continues e.message) :
    Continues (report es) := by
  rcases es.eq_nil_or_concat with rfl | ⟨front, e, rfl⟩
  · exact ⟨"", "yaml: unmarshal errors:", rfl, by decide, by decide⟩
  · rw [List.concat_eq_append, report, List.foldl_concat]
    exact (h e (by simp)).behind _

/--
**Messages are one line each, but for what they show as it is.**

If no name, key or alias of a target has a line feed, then messages have as many as what they
show of the document as it stands there.  With the header the report has one line more than
there are errors, and a further one for each of these line feeds.
-/
theorem decode_report_lines {options : Options} {target : Target} {es : List (DecodeError t)}
    (htarget : target.OneLine) (h : decode options t target = .error es) :
    (∀ e ∈ es, feeds e.message = feeds e.verbatim) ∧
      (lines (report es).toList).length =
        es.length + 1 + (es.map fun e => feeds e.verbatim).sum := by
  have hframed : ∀ e ∈ es, Framed e.verbatim e.message :=
    fun e he => (origin_of_decode h e he).framed htarget
  have hfeeds : ∀ e ∈ es, feeds e.message = feeds e.verbatim :=
    fun e he => (hframed e he).feeds_eq
  refine ⟨hfeeds, ?_⟩
  have hcontinues := continues_report fun e he => (hframed e he).continues
  rw [hcontinues.length_lines, feeds_report, List.map_congr_left hfeeds]
  omega

/-- Line feeds in a long text, behind what is shown of it, in a key that is quoted, and in one
that is not. -/
theorem decode_report_lines_escaped :
    ∃ t es target,
      parse "a: \"a long text\\n\"\nm:\n  \"x\\ny\": 1\n  \"x\\ny\": 2\n\"u\\nv\": 3\n" = .ok t ∧
      target = Target.struct "s" [⟨"a", .int, [], false⟩, ⟨"m", .map .string .int, [], false⟩] ∧
      target.OneLine ∧ decode ⟨true, .collectAll⟩ t target = .error es ∧
      es.map DecodeError.message =
        ["line 1: cannot unmarshal !!str `a long ...` into int",
          "line 4: mapping key \"x\\ny\" already defined at line 3",
          "line 5: field u\nv not found in type s"] ∧
      (∀ e ∈ es, feeds e.message = feeds e.verbatim) ∧
        (lines (report es).toList).length =
          es.length + 1 + (es.map fun e => feeds e.verbatim).sum := by
  have hread : Document.read
      "a: \"a long text\\n\"\nm:\n  \"x\\ny\": 1\n  \"x\\ny\": 2\n\"u\\nv\": 3\n".toList = .ok
        (.node ⟨.map, "", 1, 1⟩ [Document.leaf .str ['a'] 1 1,
          Document.leaf .str "a long text\n".toList 1 4, Document.leaf .str ['m'] 2 1,
          .node ⟨.map, "", 3, 3⟩
            [Document.leaf .str ['x', '\n', 'y'] 3 3, Document.leaf .int ['1'] 3 11,
              Document.leaf .str ['x', '\n', 'y'] 4 3, Document.leaf .int ['2'] 4 11],
          Document.leaf .str ['u', '\n', 'v'] 5 1, Document.leaf .int ['3'] 5 9]) := by cbv
  have hparse := congrArg (Except.map Tree.ofRose) hread
  have htarget : (Target.struct "s"
      [⟨"a", .int, [], false⟩, ⟨"m", .map .string .int, [], false⟩]).OneLine := by
    decide +kernel
  refine ⟨_, _, _, hparse, rfl, htarget, decode_eq_error.2 ⟨?_, rfl⟩, ?_,
    decode_report_lines htarget (decode_eq_error.2 ⟨?_, rfl⟩)⟩
  · exact List.isEmpty_eq_false_iff.1 (by decide +kernel)
  · decide +kernel
  · exact List.isEmpty_eq_false_iff.1 (by decide +kernel)

/-- One error on two lines: a short text is shown with its line feed. -/
theorem report_brokenLine :
    ∃ t es target, parse "a: \"x\\ny\"\n" = .ok t ∧ target = Target.map .string .int ∧
      target.OneLine ∧ decode ⟨false, .collectAll⟩ t target = .error es ∧
      es.map DecodeError.message = ["line 1: cannot unmarshal !!str `x\ny` into int"] ∧
      lines (report es).toList = ["yaml: unmarshal errors:".toList,
        "  line 1: cannot unmarshal !!str `x".toList, "y` into int".toList] := by
  have hread : Document.read "a: \"x\\ny\"\n".toList = .ok (.node ⟨.map, "", 1, 1⟩
      [Document.leaf .str ['a'] 1 1, Document.leaf .str ['x', '\n', 'y'] 1 4]) := by cbv
  have hparse := congrArg (Except.map Tree.ofRose) hread
  refine ⟨_, _, _, hparse, rfl, ?_, decode_eq_error.2 ⟨?_, rfl⟩, ?_, ?_⟩
  · decide +kernel
  · exact List.isEmpty_eq_false_iff.1 (by decide +kernel)
  · decide +kernel
  · decide +kernel

end YamlDecode
