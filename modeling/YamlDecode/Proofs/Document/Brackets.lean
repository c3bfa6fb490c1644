/-
The brackets of flow collections.

A reader counts brackets, and never looks whether they match: commas are searched for with one count
for brackets of both kinds, colons with one for each kind, and a count may fall below zero.  So
brackets may be left open or closed too often, and what is neither a collection nor an entry is a
plain text with all its brackets.

Nothing is lost on the way, though.  By the rules, the brackets of a text are those of the node it is
read as: a collection has its own ones around those of its children, and a scalar has those in its
text.  So brackets that do not nest are always in the text of a scalar, and where the text of each
scalar nests, the whole line does.
-/
import YamlDecode.Proofs.Document.Block
import YamlDecode.Proofs.Document.Formed
import YamlDecode.Proofs.Text.Nesting
import YamlDecode.Proofs.Text.Split

namespace YamlDecode

open YamlDecode.Text

/-- The brackets in the text nest, if it is the text of a scalar. -/
def Label.Nests (l : Label) : Prop := l.tag.kind = .scalar → Nested l.value.toList

instance : DecidablePred Label.Nests := fun l =>
  inferInstanceAs (Decidable (l.tag.kind = .scalar → Nested l.value.toList))

namespace Document

mutual

/-- The brackets of a node on one line. -/
def nodeBrackets : Rose Label → List Char
  | .node l cs =>
    match l.tag with
    | .seq => '[' :: (nodesBrackets cs ++ [']'])
    | .map => '{' :: (nodesBrackets cs ++ ['}'])
    | _ => bracketsOf l.value.toList

def nodesBrackets : List (Rose Label) → List Char
  | [] => []
  | r :: rs => nodeBrackets r ++ nodesBrackets rs

end

theorem nodeBrackets_word (word : List Char) (line column : Nat) :
    nodeBrackets (leaf (Tag.ofPlain word) word line column) = bracketsOf word := by
  have htag := Tag.isContainer_ofPlain word
  unfold leaf Rose.leaf nodeBrackets
  split
  · next hseq =>
    rw [show Tag.ofPlain word = .seq from hseq] at htag
    cases htag
  · next hmap =>
    rw [show Tag.ofPlain word = .map from hmap] at htag
    cases htag
  · rw [String.toList_ofList]

mutual

/-- Where the texts of all scalars nest, all brackets do. -/
theorem nested_nodeBrackets : ∀ r : Rose Label,
    (∀ l ∈ r.preorder, l.Nests) → Nested (nodeBrackets r)
  | .node l cs, h => by
      have hcs : Nested (nodesBrackets cs) :=
        nested_nodesBrackets cs fun k hk => h k (List.mem_cons_of_mem l hk)
      have hself := h l List.mem_cons_self
      rw [nodeBrackets]
      split
      · exact hcs.enclose .square
      · exact hcs.enclose .curly
      · next hseq hmap =>
        have hscalar := Tag.isContainer_of_ne hseq hmap
        exact nested_bracketsOf.2 (hself (by simpa [Tag.isContainer] using hscalar))

theorem nested_nodesBrackets : ∀ rs : List (Rose Label),
    (∀ l ∈ Rose.preorderAll rs, l.Nests) → Nested (nodesBrackets rs)
  | [], _ => nested_nil
  | r :: rs, h => by
      have hr := nested_nodeBrackets r fun l hl => h l (List.mem_append_left _ hl)
      have hrs := nested_nodesBrackets rs fun l hl => h l (List.mem_append_right _ hl)
      exact hr.append hrs

end

/-! ### Texts without quotes and comments -/

/-- There are neither quotes nor comment signs in the text. -/
def Unmarked (cs : List Char) : Prop := ∀ c ∈ ['"', '\'', '#'], c ∉ cs

instance : DecidablePred Unmarked := fun _ => List.decidableBAll _ _

namespace Unmarked

variable {cs : List Char}

theorem mono {part : List Char} (h : Unmarked cs) (hpart : part ⊆ cs) : Unmarked part :=
  fun c hc hmem => h c hc (hpart hmem)

theorem opens_eq (h : Unmarked cs) : Quoted.opens cs = false := by
  refine Quoted.opens_eq_false fun c hc hhead => ?_
  exact h c (List.mem_append_left ['#'] hc) (List.mem_of_mem_head? hhead)

theorem stripComment_trim (h : Unmarked cs) : stripComment (trim cs) = trim cs := by
  have hhash : '#' ∉ trim cs := h.mono (trim_subset cs) '#' (by simp)
  rw [stripComment_of_not_mem hhash, trim, trimEnd_trimEnd]

end Unmarked

/-! ### Collections and their pieces -/

namespace Grammar

theorem subset_of_mem_contentPieces {p : Scanner.Piece} {inner : List Char}
    (h : p ∈ contentPieces inner) : p.text ⊆ inner := by
  obtain ⟨front, behind, happend, -⟩ := mem_flowPieces (List.mem_filter.1 h).1
  rw [happend]
  exact fun c hc => List.mem_append_right front (List.mem_append_left behind hc)

/-- The brackets of a collection are those of its pieces; there are none in blanks. -/
theorem bracketsOf_contentPieces (inner : List Char) :
    (contentPieces inner).flatMap (fun p => bracketsOf p.text) = bracketsOf inner := by
  have hall : bracketsOf inner = (flowPieces inner).flatMap fun p => bracketsOf p.text := by
    conv_lhs => rw [← intercalate_flowPieces inner]
    rw [bracketsOf_intercalate rfl, List.flatMap_map]
  rw [hall, contentPieces]
  induction flowPieces inner with
  | nil => rfl
  | cons p ps ih =>
      by_cases hblank : allBlank p.text = true
      · rw [List.filter_cons_of_neg (by simp [hblank]), ih, List.flatMap_cons,
          bracketsOf_allBlank hblank, List.nil_append]
      · rw [List.filter_cons_of_pos (by simp [hblank]), List.flatMap_cons, List.flatMap_cons, ih]

/-- What a collection is read from are its brackets, and pieces in between. -/
theorem bracketsOf_collection {opening closing : Char} (hb : Brackets opening closing)
    {text inner : List Char} (hplain : Unmarked text)
    (content : stripComment (trim text) = opening :: (inner ++ [closing])) :
    bracketsOf text =
        opening :: ((contentPieces inner).flatMap (fun p => bracketsOf p.text) ++ [closing]) ∧
      ∀ p ∈ contentPieces inner, Unmarked p.text := by
  rw [hplain.stripComment_trim] at content
  constructor
  · rw [bracketsOf_contentPieces, ← bracketsOf_enclose hb, ← content, bracketsOf_trim]
  · intro p hp
    have hinner : inner ⊆ trim text := by
      rw [content]
      exact fun c hc => List.mem_cons_of_mem _ (List.mem_append_left _ hc)
    have hpiece : p.text ⊆ trim text := List.Subset.trans (subset_of_mem_contentPieces hp) hinner
    exact hplain.mono (List.Subset.trans hpiece (trim_subset text))

theorem bracketsOf_key {line column : Nat} {text : List Char} {key : Rose Label}
    (h : readKey line column text = .ok key) (hplain : Unmarked text) :
    bracketsOf text = nodeBrackets key := by
  rcases readKey_eq_ok h with ⟨value, behind, hopens, -, -⟩ | ⟨-, rfl⟩
  · rw [(hplain.mono (trim_subset text)).opens_eq] at hopens
    cases hopens
  · rw [nodeBrackets_word, bracketsOf_trim]

/-- The colon of an entry is no bracket. -/
theorem bracketsOf_entry {text before after : List Char} (hplain : Unmarked text)
    (h : flowColon (trim text) = some (before, after)) :
    bracketsOf text = bracketsOf before ++ bracketsOf after ∧ Unmarked before ∧ Unmarked after := by
  have happend := flowColon_eq_some h
  have htrim : Unmarked (before ++ ':' :: after) := happend ▸ hplain.mono (trim_subset text)
  refine ⟨?_, htrim.mono (List.subset_append_left _ _), htrim.mono ?_⟩
  · rw [← bracketsOf_trim, happend, bracketsOf_append]
    rfl
  · exact fun c hc => List.mem_append_right before (List.mem_cons_of_mem ':' hc)

mutual

theorem Inline.brackets {line column : Nat} {text : List Char} {node : Rose Label} :
    Inline line column text node → Unmarked text → bracketsOf text = nodeBrackets node
  | .quoted opens _, h => by
      rw [(h.mono (trim_subset text)).opens_eq] at opens
      cases opens
  | .word _ content _, h => by
      rw [h.stripComment_trim] at content
      rw [nodeBrackets_word, ← content, bracketsOf_trim]
  | .mapping _ content entries _, h => by
      obtain ⟨hbrackets, hpieces⟩ := bracketsOf_collection .curly h content
      rw [hbrackets, entries.brackets hpieces]
      rfl
  | .sequence _ content items _, h => by
      obtain ⟨hbrackets, hpieces⟩ := bracketsOf_collection .square h content
      rw [hbrackets, items.brackets hpieces]
      rfl

theorem FlowEntries.brackets {line column : Nat} {ps : List Scanner.Piece}
    {nodes : List (Rose Label)} : FlowEntries line column ps nodes →
      (∀ p ∈ ps, Unmarked p.text) →
      ps.flatMap (fun p => bracketsOf p.text) = nodesBrackets nodes
  | .nil, _ => rfl
  | .cons (p := p) colon readsKey readsValue rest, h => by
      obtain ⟨hp, hps⟩ := List.forall_mem_cons.1 h
      obtain ⟨hentry, hbefore, hafter⟩ := bracketsOf_entry hp colon
      rw [List.flatMap_cons, hentry, bracketsOf_key readsKey hbefore, readsValue.brackets hafter,
        rest.brackets hps, List.append_assoc]
      rfl

theorem FlowItems.brackets {line column : Nat} {ps : List Scanner.Piece}
    {nodes : List (Rose Label)} : FlowItems line column ps nodes →
      (∀ p ∈ ps, Unmarked p.text) →
      ps.flatMap (fun p => bracketsOf p.text) = nodesBrackets nodes
  | .nil, _ => rfl
  | .cons (p := p) readsValue rest, h => by
      obtain ⟨hp, hps⟩ := List.forall_mem_cons.1 h
      have hvalue := readsValue.brackets (hp.mono (trim_subset p.text))
      rw [bracketsOf_trim] at hvalue
      rw [List.flatMap_cons, hvalue, rest.brackets hps]
      rfl

end

/-- What starts with a bracket is read as a collection, and ends with the bracket that closes. -/
theorem Inline.collection {opening closing : Char} (hb : Brackets opening closing)
    {line column : Nat} {rest : List Char} {node : Rose Label}
    (h : Inline line column (opening :: rest) node) (hplain : Unmarked (opening :: rest)) :
    ∃ inner nodes, trim (opening :: rest) = opening :: (inner ++ [closing]) ∧
      nodeBrackets node = opening :: (nodesBrackets nodes ++ [closing]) ∧
      Rose.preorderAll nodes ⊆ node.preorder := by
  obtain ⟨more, hmore⟩ := exists_trim_eq hb.isBlank_eq rest
  have hstrip := hplain.stripComment_trim
  cases h with
  | quoted opens _ =>
      rw [(hplain.mono (trim_subset _)).opens_eq] at opens
      cases opens
  | word _ content brackets =>
      obtain ⟨hcurly, hsquare⟩ := brackets more
      rw [hstrip, hmore] at content
      rcases hb with - | -
      · exact absurd content.symm hsquare
      · exact absurd content.symm hcurly
  | mapping _ content entries _ =>
      rw [hstrip] at content
      have hopening : opening = '{' := (List.cons.inj (hmore.symm.trans content)).1
      rcases hb with - | -
      · cases hopening
      · exact ⟨_, _, content, rfl, List.subset_cons_self _ _⟩
  | sequence _ content items _ =>
      rw [hstrip] at content
      have hopening : opening = '[' := (List.cons.inj (hmore.symm.trans content)).1
      rcases hb with - | -
      · exact ⟨_, _, content, rfl, List.subset_cons_self _ _⟩
      · cases hopening

end Grammar

end Document

open Document

/--
**Brackets that do not nest are in the text of a scalar.**

A line of flow notation is read only if it ends with the bracket that goes with its first one.  Its
brackets are those of the nodes that are read, so they nest if they do in the text of each scalar.
-/
theorem parse_brackets {opening closing : Char} (hb : Brackets opening closing) {text : String}
    {rest : List Char} {t : Tree} (hline : lines text.toList = [opening :: rest])
    (hplain : Unmarked (opening :: rest)) (h : parse text = .ok t) :
    ∃ inner root, trimEnd (opening :: rest) = opening :: (inner ++ [closing]) ∧
      t.root? = some root ∧
      bracketsOf (opening :: rest) = nodeBrackets (root.view.map Tree.Ref.label) ∧
      ((∀ r : Tree.Ref t, r.kind = .scalar → Nested r.value.toList) → Nested inner) := by
  obtain ⟨node, hread, rfl⟩ := exists_read_of_parse h
  obtain ⟨root, hroot, hview⟩ := Tree.map_view_ofRose node
  rw [read_of_bracket hb hline] at hread
  have hinline := readInline_sound hread
  have hbrackets := hinline.brackets hplain
  obtain ⟨inner, nodes, htext, hnode, hbelow⟩ := hinline.collection hb hplain
  have hinner : bracketsOf inner = nodesBrackets nodes := by
    rw [← bracketsOf_trim, htext, bracketsOf_enclose hb, hnode] at hbrackets
    exact List.append_cancel_right (List.cons.inj hbrackets).2
  refine ⟨inner, root, ?_, hroot, hview.symm ▸ hbrackets, ?_⟩
  · rw [← trim_cons hb.isBlank_eq, htext]
  · intro hscalars
    rw [← nested_bracketsOf, hinner]
    apply nested_nodesBrackets
    intro l hl
    have hlabel : l ∈ (root.view.map Tree.Ref.label).preorder := hview.symm ▸ hbelow hl
    rw [Rose.preorder_map] at hlabel
    obtain ⟨r, -, rfl⟩ := List.mem_map.1 hlabel
    exact hscalars r

/-- Collections of both kinds, and blanks behind the last bracket. -/
theorem parse_brackets_both : ∃ t inner, parse "[\x7ba: b[c]\x7d] \n" = .ok t ∧
    trimEnd "[\x7ba: b[c]\x7d] ".toList = '[' :: (inner ++ [']']) ∧ Nested inner := by
  have hread : Document.read "[\x7ba: b[c]\x7d] \n".toList = .ok (.node ⟨.seq, "", 1, 1⟩
      [.node ⟨.map, "", 1, 2⟩ [.leaf ⟨.str, "a", 1, 3⟩, .leaf ⟨.str, "b[c]", 1, 6⟩]]) := rfl
  have hparse := congrArg (Except.map Tree.ofRose) hread
  obtain ⟨inner, root, htext, -, -, hnested⟩ :=
    @parse_brackets '[' ']' .square "[\x7ba: b[c]\x7d] \n" "\x7ba: b[c]\x7d] ".toList _
      (by decide) (by decide) hparse
  refine ⟨_, inner, hparse, htext, hnested fun r => ?_⟩
  have hentry : ∀ c ∈ [.leaf ⟨.str, "a", 1, 3⟩, .leaf ⟨.str, "b[c]", 1, 6⟩],
      Rose.Every (fun R : Rose Label => R.label.Nests) c :=
    List.forall_mem_cons.2 ⟨.node (by decide) (List.forall_mem_nil _),
      List.forall_mem_singleton.2 (.node (by decide) (List.forall_mem_nil _))⟩
  have hself := (Tree.every_view (P := fun R => R.label.Nests)
    (.node (by decide) (List.forall_mem_singleton.2 (.node (by decide) hentry))) r).self
  rw [r.map_view] at hself
  exact hself

/-- A closing bracket too many is accepted as a part of a word. -/
theorem brackets_surplus :
    Unmarked "[a]]".toList ∧ ¬Nested "[a]]".toList ∧
      parse "[a]]" = .ok (.ofRose (.node ⟨.seq, "", 1, 1⟩ [.leaf ⟨.str, "a]", 1, 2⟩])) := by
  have hread : Document.read "[a]]".toList =
      .ok (.node ⟨.seq, "", 1, 1⟩ [.leaf ⟨.str, "a]", 1, 2⟩]) := rfl
  exact ⟨by decide, by decide, congrArg (Except.map Tree.ofRose) hread⟩

end YamlDecode
