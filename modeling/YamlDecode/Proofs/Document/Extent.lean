/-
How far a reader goes.

What is left behind something that was read are the last of the lines that stood there
before, and the line on which it starts is never among them.  So each step of a loop takes up
a line, and nothing that is read later stands on a line that was read earlier.

The one place where a line is put back is an item whose collection starts on the line of its
dash.  That line is then read as a line of its own, and since it has content, it is taken up
by the collection.
-/
import YamlDecode.Proofs.Document.Grammar
import YamlDecode.Proofs.Document.Source

namespace YamlDecode.Document

open YamlDecode.Text

/-- A line of which a part has been passed has content, whatever is left of it. -/
theorem Line.ignorable_of_offset {l : Line} (h : 0 < l.offset) : l.ignorable = false := by
  rw [ignorable, beq_false_of_ne (Nat.ne_of_gt h), Bool.false_and]

/-- Behind the dash of an item a part of its line has been passed. -/
theorem Line.offset_passTo_pos {l : Line} {tail : List Char} (hitem : isItem l.text = true)
    (htail : tail <:+ l.text.tail) : 0 < (l.passTo tail).offset := by
  have hsplit := width_spaces l.rest
  have hwidth : width tail < width l.text := by
    obtain ⟨front, hfront⟩ := htail
    cases htext : l.text with
    | nil =>
        rw [htext] at hitem
        cases hitem
    | cons c cs =>
        have hpos := c.utf8Size_pos
        rw [htext, List.tail_cons] at hfront
        rw [← hfront, width_cons, width_append]
        omega
  show 0 < l.offset + width l.rest - width tail
  rw [Line.text] at hwidth
  omega

theorem Line.ignorable_passTo {l : Line} {tail : List Char} (hitem : isItem l.text = true)
    (htail : tail <:+ l.text.tail) : (l.passTo tail).ignorable = false :=
  ignorable_of_offset (offset_passTo_pos hitem htail)

theorem Line.text_suffix (l : Line) : l.text <:+ l.rest := List.dropWhile_suffix _

theorem skipIgnorable_suffix {ls rest : List Line} (h : skipIgnorable ls = rest) : rest <:+ ls :=
  h ▸ List.dropWhile_suffix _

/-- The next line with content is still the next one when those before it are gone. -/
theorem skipIgnorable_next {ls rest : List Line} {l : Line} (h : skipIgnorable ls = l :: rest) :
    skipIgnorable (l :: rest) = l :: rest :=
  skipIgnorable_cons (not_ignorable_of_skip h) rest

namespace Grammar

theorem behindDash_suffix_tail (l : Line) : behindDash l <:+ l.text.tail :=
  List.dropWhile_suffix _

theorem behindDash_suffix_text (l : Line) : behindDash l <:+ l.text :=
  (behindDash_suffix_tail l).trans (List.tail_suffix _)

theorem behindDash_suffix (l : Line) : behindDash l <:+ l.rest :=
  (behindDash_suffix_text l).trans l.text_suffix

theorem behindColon_suffix_text {l : Line} {before behind : List Char}
    (h : blockColon l.text = some (before, behind)) : trimStart behind <:+ l.text :=
  (List.dropWhile_suffix _).trans ⟨before ++ [':'], by simp [blockColon_eq_some h]⟩

theorem behindColon_suffix {l : Line} {before behind : List Char}
    (h : blockColon l.text = some (before, behind)) : trimStart behind <:+ l.rest :=
  (behindColon_suffix_text h).trans l.text_suffix

/-- The lines left behind the next line with content, or some of them. -/
def Beyond (ls after : List Line) : Prop :=
  ∃ l rest, skipIgnorable ls = l :: rest ∧ after <:+ rest

namespace Beyond

variable {ls mid after : List Line}

theorem suffix (h : Beyond ls after) : after <:+ ls := by
  obtain ⟨l, rest, hnext, hafter⟩ := h
  exact hafter.trans ((List.suffix_cons l rest).trans (skipIgnorable_suffix hnext))

theorem length_lt (h : Beyond ls after) : after.length < ls.length := by
  obtain ⟨l, rest, hnext, hafter⟩ := h
  have hskip := (skipIgnorable_suffix hnext).length_le
  have hle := hafter.length_le
  rw [List.length_cons] at hskip
  omega

theorem trans (h : Beyond ls mid) (hafter : after <:+ mid) : Beyond ls after := by
  obtain ⟨l, rest, hnext, hmid⟩ := h
  exact ⟨l, rest, hnext, hafter.trans hmid⟩

theorem of_next {l : Line} {rest : List Line} (h : Beyond (l :: rest) after)
    (hnext : skipIgnorable ls = l :: rest) : Beyond ls after := by
  obtain ⟨l', rest', hnext', hafter⟩ := h
  rw [skipIgnorable_next hnext] at hnext'
  exact ⟨l', rest', hnext.trans hnext', hafter⟩

theorem below_next {l : Line} {rest : List Line} (h : Beyond ls after)
    (hnext : skipIgnorable ls = l :: rest) : after <:+ rest := by
  obtain ⟨l', rest', hnext', hafter⟩ := h
  obtain ⟨-, rfl⟩ := List.cons.inj (hnext.symm.trans hnext')
  exact hafter

end Beyond

mutual

theorem Block.beyond {ls after : List Line} {node : Rose Label} :
    Block ls node after → Beyond ls after
  | .sequence next read => (read.beyond (skipIgnorable_next next)).of_next next
  | .mapping next _ entries _ => by
      rcases entries.beyond with ⟨stop, -⟩ | hbeyond
      · exact absurd (stop _ _ (skipIgnorable_next next)) (Nat.lt_irrefl _)
      · exact hbeyond.of_next next
  | .inline next _ => ⟨_, _, next, List.suffix_refl _⟩

theorem Sequence.beyond {ls after : List Line} {node : Rose Label} :
    Sequence ls node after → skipIgnorable ls = ls → Beyond ls after
  | .items item items _, hfirst => by
      rcases items.beyond with ⟨stop, -⟩ | hbeyond
      · rcases stop _ _ hfirst with hless | ⟨-, hdash⟩
        · exact absurd hless (Nat.lt_irrefl _)
        · exact absurd (item.symm.trans hdash) nofun
      · exact hbeyond

theorem Entries.beyond {indent : Nat} {ls after : List Line} {nodes : List (Rose Label)} :
    Entries indent ls nodes after →
      Next (·.indent < indent) ls ∧ after = ls ∨ Beyond ls after
  | .nil stop => .inl ⟨stop, rfl⟩
  | .cons next _ _ _ readsValue more => by
      have hbeyond : Beyond ls _ := ⟨_, _, next, readsValue.suffix⟩
      rcases more.beyond with ⟨-, rfl⟩ | hmore
      · exact .inr hbeyond
      · exact .inr (hbeyond.trans hmore.suffix)

theorem Items.beyond {indent : Nat} {ls after : List Line} {nodes : List (Rose Label)} :
    Items indent ls nodes after →
      Next (Line.EndsSequence indent) ls ∧ after = ls ∨ Beyond ls after
  | .nil stop => .inl ⟨stop, rfl⟩
  | .block next _ item _ readsValue more => by
      have hcontent := Line.ignorable_passTo item (behindDash_suffix_tail _)
      have hbelow := readsValue.beyond.below_next (skipIgnorable_cons hcontent _)
      have hbeyond : Beyond ls _ := ⟨_, _, next, hbelow⟩
      rcases more.beyond with ⟨-, rfl⟩ | hmore
      · exact .inr hbeyond
      · exact .inr (hbeyond.trans hmore.suffix)
  | .value next _ _ _ readsValue more => by
      have hbeyond : Beyond ls _ := ⟨_, _, next, readsValue.suffix⟩
      rcases more.beyond with ⟨-, rfl⟩ | hmore
      · exact .inr hbeyond
      · exact .inr (hbeyond.trans hmore.suffix)

theorem Value.suffix {compact : Bool} {l : Line} {text : List Char} {ls after : List Line}
    {node : Rose Label} : Value compact l text ls node after → after <:+ ls
  | .deeper _ skip _ read => read.beyond.suffix.trans (skipIgnorable_suffix skip)
  | .compact _ skip _ read =>
      (read.beyond (skipIgnorable_next skip)).suffix.trans (skipIgnorable_suffix skip)
  | .null _ => List.suffix_refl _
  | .scalar _ read => by
      obtain rfl := congrArg Prod.snd read
      exact takeBlock_suffix _ _ _ _
  | .inline _ => List.suffix_refl _

end

theorem Entries.suffix {indent : Nat} {ls after : List Line} {nodes : List (Rose Label)}
    (h : Entries indent ls nodes after) : after <:+ ls := by
  rcases h.beyond with ⟨-, rfl⟩ | hbeyond
  · exact List.suffix_refl _
  · exact hbeyond.suffix

theorem Items.suffix {indent : Nat} {ls after : List Line} {nodes : List (Rose Label)}
    (h : Items indent ls nodes after) : after <:+ ls := by
  rcases h.beyond with ⟨-, rfl⟩ | hbeyond
  · exact List.suffix_refl _
  · exact hbeyond.suffix

end Grammar

end YamlDecode.Document
