/-
Values written to documents and decoded again.

A value can be written on one line, or laid out on many.  Either way the document is read
as a tree that means the value, and such a tree decodes to it under all options.
-/
import YamlDecode.Proofs.Document.Block

namespace YamlDecode

open YamlDecode.Text YamlDecode.Document

/-- **A value written on one line is decoded to itself.** -/
theorem unmarshal_flow (options : Options) {v : Json} {depth : Nat} (h : v.Plain depth)
    (hdepth : depth < maxDepth) (hwidth : width v.flow ≤ maxInlineWidth) :
    unmarshal options (String.ofList v.flow) .any = .ok v := by
  have hlone := lone_flow h
  have hsound : ∀ r ∈ [(⟨0, v.flow⟩ : Row)], r.Sound := by
    intro r hr
    rcases List.mem_singleton.1 hr with rfl
    exact ⟨hlone.whole.tight, hlone.whole.newline, fun hhash => (hlone.first _ hhash).1 rfl⟩
  have htext : WrittenIn [⟨0, v.flow⟩] v.flow := Or.inl (by simp [joinLines, Row.line])
  obtain ⟨node, hread, hmeans⟩ : ∃ node, Document.read v.flow = .ok node ∧ Means node v := by
    refine read_of_block hsound hlone.mark (Nat.le_of_ble_eq_true rfl) htext ?_
    intro ls hls
    rcases hls with - | ⟨hfirst, hrest⟩
    rcases hrest with - | -
    next l =>
      obtain ⟨node, hnode, hmeans⟩ : ∃ node,
          readInline maxDepth l.number 1 v.flow = .ok node ∧ Means node v :=
        readInline_flow h (Nat.le_of_lt_succ hdepth) hlone.whole.tight.trim_eq hwidth
      refine ⟨node, ?_, hmeans⟩
      show readBlock (readers maxDepth) 0 [l] = _
      rw [readBlock_cons hfirst, hlone.item, hlone.colon]
      show (readInline maxDepth l.number 1 v.flow).map _ = _
      rw [hnode]
      rfl
  refine unmarshal_of_means options ?_ hmeans
  rw [String.toList_ofList]
  exact hread

/-- A sign, quotes around a comment sign, and a comma inside a text. -/
theorem unmarshal_flow_pair :
    unmarshal {} "[-1, \x7b\"#\": \"a, b\"\x7d]" .any =
      .ok (.arr [.int (-1), .obj [("#", .str "a, b")]]) := by
  have hplain : (Json.arr [.int (-1), .obj [("#", .str "a, b")]]).Plain 2 := by
    refine .arr ?_
    intro v hv
    rcases List.mem_pair.1 hv with rfl | rfl
    · exact .int (by decide) (by decide)
    · refine .obj (by decide) ?_
      intro m hm
      rcases List.mem_singleton.1 hm with rfl
      exact .str "a, b"
  have htext : String.ofList (Json.arr [.int (-1), .obj [("#", .str "a, b")]]).flow =
      "[-1, \x7b\"#\": \"a, b\"\x7d]" := by cbv
  rw [← htext]
  exact unmarshal_flow {} hplain (by decide) (by decide)

/-- **A collection laid out on lines is decoded to itself**, however it is laid out. -/
theorem unmarshal_block (options : Options) {depth indent : Nat} {v : Json} {rows : List Row}
    {text : String} (h : Block depth indent v rows) (hdepth : depth < maxDepth)
    (hcount : rows.length ≤ maxLines) (htext : WrittenIn rows text.toList) :
    unmarshal options text .any = .ok v := by
  have hregular := regular_block depth
  have hsound := hregular.sound h
  obtain ⟨first, rest, rfl, hstarts⟩ := hregular.head h
  have hmark : first ≠ ['-', '-', '-'] := by
    rintro rfl
    revert hstarts
    decide
  obtain ⟨node, hread, hmeans⟩ : ∃ node, Document.read text.toList = .ok node ∧ Means node v := by
    refine read_of_block hsound hmark hcount htext ?_
    intro ls hls
    have hblock := (readsBlocks depth maxDepth hdepth).block h hls (next_nil _)
    rwa [List.append_nil] at hblock
  exact unmarshal_of_means options hread hmeans

/-- An array at the indentation of its key.  Its first item starts behind the dash and goes on
below, and its second one is on a deeper line. -/
theorem unmarshal_block_nested :
    unmarshal {} "\"k\":\n- - true\n  - []\n-\n    \"m\": 7\n" .any =
      .ok (.obj [("k", .arr [.arr [.bool true, .arr []], .obj [("m", .int 7)]])]) := by
  have hbeside : ItemRows (Block 1) 0 (.arr [.bool true, .arr []])
      [⟨0, ['-', ' ', '-', ' ', 't', 'r', 'u', 'e']⟩, ⟨2, ['-', ' ', '[', ']']⟩] := by
    have htrue : ItemRows (Block 0) 2 (.bool true) [⟨2, ['-', ' ', 't', 'r', 'u', 'e']⟩] :=
      .leaf (.bool true) (by decide)
    have hempty : ItemRows (Block 0) 2 (.arr []) [⟨2, ['-', ' ', '[', ']']⟩] := .leaf .arr (by decide)
    exact .beside 0 (.arr (by decide) (by decide) (.cons htrue (.cons hempty .nil)))
  have hbelow : ItemRows (Block 1) 0 (.obj [("m", .int 7)])
      [⟨0, ['-']⟩, ⟨4, ['"', 'm', '"', ':', ' ', '7']⟩] := by
    have hentry : EntryRows (Block 0) 4 ("m", .int 7) [⟨4, ['"', 'm', '"', ':', ' ', '7']⟩] :=
      .leaf (.int (by decide) (by decide)) (by decide)
    exact .below (by decide : 0 < 4) (.obj (by decide) (by decide) (by decide) (.cons hentry .nil))
  have hlevel : EntryRows (Block 2) 0 ("k", .arr [.arr [.bool true, .arr []], .obj [("m", .int 7)]])
      [⟨0, ['"', 'k', '"', ':']⟩, ⟨0, ['-', ' ', '-', ' ', 't', 'r', 'u', 'e']⟩,
        ⟨2, ['-', ' ', '[', ']']⟩, ⟨0, ['-']⟩, ⟨4, ['"', 'm', '"', ':', ' ', '7']⟩] :=
    .level (.arr (by decide) (by decide) (.cons hbeside (.cons hbelow .nil)))
  have hblock : Block 3 0 (.obj [("k", .arr [.arr [.bool true, .arr []], .obj [("m", .int 7)]])])
      [⟨0, ['"', 'k', '"', ':']⟩, ⟨0, ['-', ' ', '-', ' ', 't', 'r', 'u', 'e']⟩,
        ⟨2, ['-', ' ', '[', ']']⟩, ⟨0, ['-']⟩, ⟨4, ['"', 'm', '"', ':', ' ', '7']⟩] :=
    .obj (by decide) (by decide) (by decide) (.cons hlevel .nil)
  exact unmarshal_block {} hblock (by decide) (by decide) (Or.inr (by cbv))

end YamlDecode
