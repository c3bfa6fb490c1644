/-
One error, one message.

An error is put into words three times: where it arises, from what is at hand there, for its
message, from the evidence that was kept, and for its diagnostic.  The evidence keeps less than
the place had, since an empty name is kept as none and the line of an earlier key as a text.  What
is said at the place is made with the same two reductions, so the words agree, whatever the
origin of the error and whatever its key, also if that is the empty text.

The report is then the messages under one header, and the diagnostics are those of the errors
that have one, both in the order in which the errors were found.
-/
import YamlDecode.Proofs.Decode.Origin

namespace YamlDecode

open YamlDecode.Tree

variable {t : Tree}

/-- What was said where an error arose is its message. -/
theorem Origin.said_eq {whole : Target} {e : DecodeError t} (h : Origin whole e) :
    e.said = e.message := by
  cases h with
  | misfit | unknownKey | boundBefore | clash | defect => rfl

theorem DecodeError.diagnostic?_message {e : DecodeError t} {d : Diagnostic}
    (h : e.diagnostic? = some d) : d.message = e.message := by
  obtain ⟨cause | defect, said⟩ := e
  · obtain rfl := Option.some.inj h
    rfl
  · cases h

/-! ### The report -/

/-- The report is a header and a line for each error. -/
theorem report_eq (errors : List (DecodeError t)) :
    report errors =
      String.join ("yaml: unmarshal errors:" :: errors.map fun e => "\n  " ++ e.message) := by
  have hfold : ∀ out : String,
      errors.foldl (fun out e => out ++ "\n  " ++ e.message) out =
        out ++ String.join (errors.map fun e => "\n  " ++ e.message) := by
    induction errors with
    | nil => simp
    | cons e rest ih =>
        intro out
        rw [List.foldl_cons, ih, List.map_cons, String.join_cons, String.append_assoc,
          String.append_assoc, String.append_assoc]
  rw [report, hfold, String.join_cons]

/-- The diagnostics are those of the errors that blame the document. -/
theorem diagnostics_eq (errors : List (DecodeError t)) :
    diagnostics errors = (errors.filterMap DecodeError.text?).map TextError.diagnostic := by
  rw [diagnostics, List.map_filterMap]
  rfl

/--
**All renderings of an error agree.**

What was said where it arose is its message, and its diagnostic has that message too.  Decoding a
document in one step reports the messages line by line under a header, and gives the diagnostics
of the errors that have one; both are in the order of the errors.
-/
theorem decode_renderings {options : Options} {target : Target} {es : List (DecodeError t)}
    (h : decode options t target = .error es) :
    (∀ e ∈ es, e.said = e.message ∧ ∀ x, e.text? = some x →
        e.diagnostic? = some x.diagnostic ∧ x.diagnostic.message = e.message) ∧
      ∀ text, parse text = .ok t → unmarshal options text target = .error (.decode
        (String.join ("yaml: unmarshal errors:" :: es.map fun e => "\n  " ++ e.message))
        ((es.filterMap DecodeError.text?).map TextError.diagnostic)) := by
  constructor
  · intro e he
    refine ⟨(origin_of_decode h e he).said_eq, fun x hx => ?_⟩
    have hdiagnostic : e.diagnostic? = some x.diagnostic := by
      rw [DecodeError.diagnostic?, hx]
      rfl
    exact ⟨hdiagnostic, DecodeError.diagnostic?_message hdiagnostic⟩
  · intro text hparse
    rw [unmarshal, hparse]
    simp only [h]
    rw [report_eq, diagnostics_eq]

/-- A struct with a field that the empty key binds too; a text that is no number; no field. -/
theorem decode_renderings_emptyKey :
    ∃ t es target, parse "b: 1\n\"\": 2\na: z\nc: 3\n" = .ok t ∧
      target = Target.struct "s" [⟨"a", .int, [], false⟩, ⟨"b", .int, [""], false⟩] ∧
      decode ⟨true, .collectAll⟩ t target = .error es ∧
      es.map DecodeError.message =
        ["line 2: mapping key \"\" already defined at line 1",
          "line 3: cannot unmarshal !!str `z` into int", "line 4: field c not found in type s"] ∧
      (∀ e ∈ es, e.said = e.message ∧ ∀ x, e.text? = some x →
          e.diagnostic? = some x.diagnostic ∧ x.diagnostic.message = e.message) ∧
        ∀ text, parse text = .ok t → unmarshal ⟨true, .collectAll⟩ text target = .error (.decode
          (String.join ("yaml: unmarshal errors:" :: es.map fun e => "\n  " ++ e.message))
          ((es.filterMap DecodeError.text?).map TextError.diagnostic)) := by
  have hread : Document.read "b: 1\n\"\": 2\na: z\nc: 3\n".toList = .ok
      (.node ⟨.map, "", 1, 1⟩ [Document.leaf .str ['b'] 1 1, Document.leaf .int ['1'] 1 4,
        Document.leaf .str [] 2 1, Document.leaf .int ['2'] 2 5,
        Document.leaf .str ['a'] 3 1, Document.leaf .str ['z'] 3 4,
        Document.leaf .str ['c'] 4 1, Document.leaf .int ['3'] 4 4]) := by cbv
  have hparse := congrArg (Except.map Tree.ofRose) hread
  refine ⟨_, _, _, hparse, rfl, decode_eq_error.2 ⟨?_, rfl⟩, ?_,
    decode_renderings (decode_eq_error.2 ⟨?_, rfl⟩)⟩
  · exact List.isEmpty_eq_false_iff.1 (by decide +kernel)
  · decide +kernel
  · exact List.isEmpty_eq_false_iff.1 (by decide +kernel)

end YamlDecode
