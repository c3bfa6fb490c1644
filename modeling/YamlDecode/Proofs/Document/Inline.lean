/-
Values written on one line, read back.

What is written is a whole text, so readers take it apart where it was put together.  The
rest is an induction on the value: its items are read with one level less of room, and
each of them means what it was written for.
-/
import YamlDecode.Proofs.Document.Flow
import YamlDecode.Proofs.Document.Items
import YamlDecode.Proofs.Text.Plain
import YamlDecode.Document.Inline

namespace YamlDecode

open YamlDecode.Text

/-! ### Words read back -/

/-- The words for null, true and false write no integer. -/
theorem ofPlain_of_readWord {cs : List Char} {n : Int} (h : readWord cs = some n) :
    Tag.ofPlain cs = .int := by
  have hne : ∀ word, readWord word = none → cs ≠ word := by
    rintro word hword rfl
    rw [hword] at h
    cases h
  have hnull : isNullWord cs = false := by
    simp [isNullWord, hne [] rfl, hne ['~'] rfl, hne ['n', 'u', 'l', 'l'] rfl,
      hne ['N', 'u', 'l', 'l'] rfl, hne ['N', 'U', 'L', 'L'] rfl]
  have htrue : isTrueWord cs = false := by
    simp [isTrueWord, hne ['t', 'r', 'u', 'e'] rfl, hne ['T', 'r', 'u', 'e'] rfl,
      hne ['T', 'R', 'U', 'E'] rfl]
  have hfalse : isFalseWord cs = false := by
    simp [isFalseWord, hne ['f', 'a', 'l', 's', 'e'] rfl, hne ['F', 'a', 'l', 's', 'e'] rfl,
      hne ['F', 'A', 'L', 'S', 'E'] rfl]
  rw [Tag.ofPlain, hnull, htrue, hfalse, h]
  rfl

namespace Document

/-! ### Reading items -/

/-- The next item of a flow collection. -/
def nextFlowItem (item : Scanner.Piece → Except ParseError Item) (ps : List Scanner.Piece) :
    Except ParseError (Option (Item × List Scanner.Piece)) :=
  match nextPiece ps with
  | none => .ok none
  | some (p, rest) => (item p).map fun i => some (i, rest)

theorem flowItems_eq_readItems (c : Collection) (item : Scanner.Piece → Except ParseError Item)
    (inner : List Char) :
    flowItems c item inner =
      (readItems c (nextFlowItem item) maxItems [] (flowPieces inner)).map (·.1) := rfl

variable {α : Type} {text : α → List Char} {holds : α → Item → Prop}
  {item : Scanner.Piece → Except ParseError Item}

/-- There is more than blanks in the piece, and an item is read from it that holds the value. -/
def ReadsPiece (item : Scanner.Piece → Except ParseError Item) (holds : α → Item → Prop)
    (p : Scanner.Piece) (x : α) : Prop :=
  allBlank p.text = false ∧ ∃ i, item p = .ok i ∧ holds x i

theorem reads_flowPieces {ps : List Scanner.Piece} {xs : List α}
    (h : List.Forall₂ (ReadsPiece item holds) ps xs) : Reads (nextFlowItem item) holds ps xs [] := by
  induction h with
  | nil => exact .nil rfl
  | @cons p x ps xs hfirst _ ih =>
      obtain ⟨hblank, i, hi, hholds⟩ := hfirst
      have hnext : nextFlowItem item (p :: ps) = .ok (some (i, ps)) := by
        rw [nextFlowItem, nextPiece, List.dropWhile_cons_of_neg (by simp [hblank])]
        simp only [hi]
        rfl
      exact .cons hnext hholds ih

/-- A collection is read piece by piece, if each piece can be read. -/
theorem flowItems_of_pieces {inner : List Char} {xs : List α} (c : Collection)
    (h : List.Forall₂ (ReadsPiece item holds) (flowPieces inner) xs) (hcount : xs.length ≤ maxItems) :
    ∃ items, List.Forall₂ holds xs items ∧
      flowItems c item inner = .ok (items.flatMap Item.nodes) := by
  obtain ⟨items, hholds, hread⟩ := (reads_flowPieces h).readItems
  refine ⟨items, hholds, ?_⟩
  rw [flowItems_eq_readItems, hread c maxItems [] hcount]
  rfl

/-- Texts that fit on a line are not too many, since none of them is empty. -/
theorem length_le_maxItems {ts : List (List Char)} (hne : ∀ t ∈ ts, t ≠ [])
    (hwidth : width (commaJoin ts) ≤ maxInlineWidth) : ts.length ≤ maxItems := by
  have hroom := length_le_width_intercalate [',', ' '] (n := 1) fun t ht =>
    List.length_pos_iff.2 (hne t ht)
  rw [List.length_cons, List.length_singleton] at hroom
  unfold commaJoin at hwidth
  unfold maxInlineWidth at hwidth
  unfold maxItems
  omega

/-- Without their blanks the pieces are texts that can be read. -/
theorem readsPiece_of_trim {xs : List α} (htight : ∀ x ∈ xs, Tight (text x))
    (hitem : ∀ x ∈ xs, ∀ p, trim p.text = text x → ∃ i, item p = .ok i ∧ holds x i) :
    ∀ ps : List Scanner.Piece, ps.map (fun p => trim p.text) = xs.map text →
      List.Forall₂ (ReadsPiece item holds) ps xs := by
  induction xs with
  | nil =>
      intro ps hps
      rw [List.map_eq_nil_iff.1 hps]
      exact .nil
  | cons x xs ih =>
      intro ps hps
      rcases ps with - | ⟨p, ps⟩
      · cases hps
      obtain ⟨hp, hps⟩ := List.cons.inj hps
      have hblank := (htight x (by simp)).allBlank_eq_false hp
      refine .cons ⟨hblank, hitem x (by simp) p hp⟩ (ih ?_ ?_ ps hps)
      · exact fun y hy => htight y (by simp [hy])
      · exact fun y hy => hitem y (by simp [hy])

/-- A collection of whole texts is read item by item, if each of them can be read. -/
theorem flowItems_commaJoin {xs : List α} (c : Collection) (hwhole : ∀ x ∈ xs, Whole (text x))
    (hwidth : width (commaJoin (xs.map text)) ≤ maxInlineWidth)
    (hitem : ∀ x ∈ xs, ∀ p, trim p.text = text x → ∃ i, item p = .ok i ∧ holds x i) :
    ∃ items, List.Forall₂ holds xs items ∧
      flowItems c item (commaJoin (xs.map text)) = .ok (items.flatMap Item.nodes) := by
  by_cases hne : xs = []
  · subst hne
    exact ⟨[], .nil, rfl⟩
  have htexts : ∀ t ∈ xs.map text, Whole t := by
    intro t ht
    obtain ⟨x, hx, rfl⟩ := List.mem_map.1 ht
    exact hwhole x hx
  have hcount := length_le_maxItems (fun t ht => (htexts t ht).tight.ne_nil) hwidth
  rw [List.length_map] at hcount
  exact flowItems_of_pieces c (readsPiece_of_trim (fun x hx => (hwhole x hx).tight) hitem _
    (map_trim_flowPieces (by simpa using hne) htexts)) hcount

/-! ### Reading values -/

/-- A text that is no quoted one is read without its blanks and without a comment. -/
theorem readInline_unquoted {room line column : Nat} {text t content : List Char}
    (hstrip : stripComment t = content) (hopens : Quoted.opens t = false) (htrim : trim text = t)
    (hwidth : width text ≤ maxInlineWidth) :
    readInline (room + 1) line column text =
      readUnquoted (readInline room line) line column content := by
  rw [readInline, if_neg (by omega)]
  simp only [htrim, hopens, hstrip]
  rfl

theorem beforeLast_concat (closing : Char) (inner : List Char) :
    beforeLast closing (inner ++ [closing]) = some inner := by
  simp [beforeLast]

/-- A text that opens neither quotes nor a collection is read as it is, without a comment. -/
theorem readInline_plain {text t content : List Char} (hstrip : stripComment t = content)
    (hopens : Quoted.opens t = false) (hfirst : ∀ c ∈ ['{', '['], content.head? ≠ some c)
    (htrim : trim text = t) (hwidth : width text ≤ maxInlineWidth) (room line column : Nat) :
    readInline (room + 1) line column text =
      .ok (leaf (Tag.ofPlain content) content line column) := by
  rw [readInline_unquoted hstrip hopens htrim hwidth, readUnquoted]
  · rintro tail rfl
    exact hfirst '{' (by decide) rfl
  · rintro tail rfl
    exact hfirst '[' (by decide) rfl

theorem readInline_word {w text : List Char} (hw : Word w) (htrim : trim text = w)
    (hwidth : width text ≤ maxInlineWidth) (room line column : Nat) :
    readInline (room + 1) line column text = .ok (leaf (Tag.ofPlain w) w line column) := by
  have hmark : ∀ c, isWordChar c = false → w.head? ≠ some c := by
    intro c hc hhead
    exact ne_of_wordChar (hw.all c (List.mem_of_mem_head? hhead)) hc rfl
  have hopens : Quoted.opens w = false := by
    refine Quoted.opens_eq_false ?_
    simp [hmark '"' rfl, hmark '\'' rfl]
  refine readInline_plain hw.whole.stripComment_eq hopens ?_ htrim hwidth room line column
  simp [hmark '{' rfl, hmark '[' rfl]

theorem readInline_write {cs text : List Char} (htrim : trim text = Quoted.write cs)
    (hwidth : width text ≤ maxInlineWidth) (room line column : Nat) :
    readInline (room + 1) line column text = .ok (leaf .str cs line column) := by
  have hread := Quoted.read_write cs []
  rw [List.append_nil] at hread
  rw [readInline, if_neg (by omega)]
  simp only [htrim, hread]
  rfl

theorem readKey_write (cs : List Char) (line column : Nat) :
    readKey line column (Quoted.write cs) = .ok (leaf .str cs line column) := by
  have hread := Quoted.read_write cs []
  rw [List.append_nil] at hread
  unfold readKey
  simp only [(Whole.write cs).tight.trim_eq, hread]
  rfl

/-- An entry of a flow mapping is read if its value is. -/
theorem flowEntry_of_value {value : Nat → List Char → Except ParseError (Rose Label)}
    {p : Scanner.Piece} {m : String × Json} (hp : trim p.text = flowMember m)
    (hvalue : ∀ column, ∃ node, value column (' ' :: m.2.flow) = .ok node ∧ Means node m.2)
    (line column : Nat) : ∃ i, flowEntry value line column p = .ok i ∧ HoldsMember m i := by
  have hcolon : flowColon (flowMember m) = some (Quoted.write m.1.toList, ' ' :: m.2.flow) :=
    flowColon_write m.1.toList (' ' :: m.2.flow)
  obtain ⟨node, hnode, hmeans⟩ := hvalue (column + 1 + p.offset + blankWidth p.text +
    width (Quoted.write m.1.toList) + 1 + blankWidth (' ' :: m.2.flow))
  refine ⟨_, ?_, holdsMember_leaf hmeans line line (column + 1 + p.offset + blankWidth p.text)⟩
  unfold flowEntry
  simp only [hp, hcolon, readKey_write, hnode]
  rfl

/-- An array is read if its items are, with one level less of room. -/
theorem readInline_arr {room line column : Nat} {text : List Char} {items : List Json}
    (hwhole : ∀ v ∈ items, Whole v.flow)
    (hread : ∀ v ∈ items, ∀ column, width v.flow ≤ maxInlineWidth →
      ∃ node, readInline room line column v.flow = .ok node ∧ Means node v)
    (htrim : trim text = (Json.arr items).flow) (hwidth : width text ≤ maxInlineWidth) :
    ∃ node, readInline (room + 1) line column text = .ok node ∧ Means node (.arr items) := by
  rw [flow_arr] at htrim
  have hinner : width (commaJoin (items.map Json.flow)) ≤ maxInlineWidth := by
    have htext := width_trim_le text
    rw [htrim, width_cons, width_append] at htext
    omega
  have hitem : ∀ v ∈ items, ∀ p, trim p.text = v.flow →
      ∃ i, flowItem (readInline room line) line column p = .ok i ∧ HoldsItem v i := by
    intro v hv p hp
    have hle : width v.flow ≤ width (commaJoin (items.map Json.flow)) :=
      width_le_commaJoin (List.mem_map_of_mem hv)
    obtain ⟨node, hnode, hmeans⟩ := hread v hv (column + 1 + p.offset + blankWidth p.text)
      (Nat.le_trans hle hinner)
    refine ⟨⟨line, [node]⟩, ?_, node, rfl, hmeans⟩
    rw [flowItem, hp, hnode]
    rfl
  obtain ⟨nodes, hholds, hnodes⟩ := flowItems_commaJoin .flowSequence hwhole hinner hitem
  refine ⟨.node ⟨.seq, "", line, column⟩ (nodes.flatMap Item.nodes), ?_, rfl,
    meansItems_of_holds hholds⟩
  rw [readInline_unquoted (whole_arr hwhole).stripComment_eq rfl htrim hwidth]
  simp only [readUnquoted, beforeLast_concat, hnodes]
  rfl

/-- An object is read if the values of its members are, with one level less of room. -/
theorem readInline_obj {room line column : Nat} {text : List Char} {members : List (String × Json)}
    (names : (members.map Prod.fst).Nodup) (hwhole : ∀ m ∈ members, Whole m.2.flow)
    (hread : ∀ m ∈ members, ∀ column, width (' ' :: m.2.flow) ≤ maxInlineWidth →
      ∃ node, readInline room line column (' ' :: m.2.flow) = .ok node ∧ Means node m.2)
    (htrim : trim text = (Json.obj members).flow) (hwidth : width text ≤ maxInlineWidth) :
    ∃ node, readInline (room + 1) line column text = .ok node ∧ Means node (.obj members) := by
  rw [flow_obj] at htrim
  have hinner : width (commaJoin (members.map flowMember)) ≤ maxInlineWidth := by
    have htext := width_trim_le text
    rw [htrim, width_cons, width_append] at htext
    omega
  have hitem : ∀ m ∈ members, ∀ p, trim p.text = flowMember m →
      ∃ i, flowEntry (readInline room line) line column p = .ok i ∧ HoldsMember m i := by
    intro m hm p hp
    have hle : width (flowMember m) ≤ width (commaJoin (members.map flowMember)) :=
      width_le_commaJoin (List.mem_map_of_mem hm)
    have hvalue : width (' ' :: m.2.flow) ≤ width (flowMember m) := by
      simp only [flowMember, width_append, width_cons, width_nil]
      omega
    exact flowEntry_of_value hp
      (fun column => hread m hm column (Nat.le_trans hvalue (Nat.le_trans hle hinner))) line column
  obtain ⟨nodes, hholds, hnodes⟩ := flowItems_commaJoin .flowMapping
    (fun m hm => whole_member (hwhole m hm)) hinner hitem
  refine ⟨.node ⟨.map, "", line, column⟩ (nodes.flatMap Item.nodes), ?_, rfl, names,
    meansMembers_of_holds hholds⟩
  rw [readInline_unquoted (whole_obj hwhole).stripComment_eq rfl htrim hwidth]
  simp only [readUnquoted, beforeLast_concat, hnodes]
  rfl

/-- **A value on one line is read back.**  Blanks around it do no harm. -/
theorem readInline_flow {v : Json} {depth : Nat} (h : v.Plain depth) :
    ∀ {room line column : Nat} {text : List Char}, depth ≤ room → trim text = v.flow →
      width text ≤ maxInlineWidth →
      ∃ node, readInline (room + 1) line column text = .ok node ∧ Means node v := by
  induction h with
  | null =>
      intro room line column text hroom htrim hwidth
      exact ⟨_, readInline_word word_null htrim hwidth room line column, rfl⟩
  | bool b =>
      intro room line column text hroom htrim hwidth
      refine ⟨_, readInline_word (word_bool b) htrim hwidth room line column, ?_⟩
      show untyped (Tag.ofPlain (Json.bool b).flow) (String.ofList (Json.bool b).flow) = some (.bool b)
      rcases b with - | -
      all_goals rfl
  | @int _ n low high =>
      intro room line column text hroom htrim hwidth
      have hword := readWord_writeInteger low high
      refine ⟨_, readInline_word (word_writeInteger n) htrim hwidth room line column, ?_⟩
      show untyped (Tag.ofPlain (writeInteger n)) (String.ofList (writeInteger n)) = some (.int n)
      rw [ofPlain_of_readWord hword, untyped, String.toList_ofList, hword]
      rfl
  | str s =>
      intro room line column text hroom htrim hwidth
      refine ⟨_, readInline_write htrim hwidth room line column, ?_⟩
      show some (Json.str (String.ofList s.toList)) = some (.str s)
      rw [String.ofList_toList]
  | @arr depth items each ih =>
      intro room line column text hroom htrim hwidth
      obtain ⟨room, rfl⟩ : ∃ n, room = n + 1 := ⟨room - 1, by omega⟩
      refine readInline_arr (fun v hv => (each v hv).whole) ?_ htrim hwidth
      intro v hv column hle
      exact ih v hv (by omega) (each v hv).whole.tight.trim_eq hle
  | @obj depth members names each ih =>
      intro room line column text hroom htrim hwidth
      obtain ⟨room, rfl⟩ : ∃ n, room = n + 1 := ⟨room - 1, by omega⟩
      refine readInline_obj names (fun m hm => (each m hm).whole) ?_ htrim hwidth
      intro m hm column hle
      exact ih m hm (by omega) (each m hm).whole.tight.trim_eq hle

end Document

end YamlDecode
