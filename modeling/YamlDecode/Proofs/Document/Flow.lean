/-
Values written on one line.

`Json.flow` writes a value in brackets and braces, with texts in double quotes.  It writes
what `Json.Plain` allows: no fractions, integers of 64 bits, objects with different names,
and collections no deeper in each other than a given depth.

Two things are shown of what is written.  It is whole, so it can be put into other texts
and taken out again, and it stands for a value also where a block could start.
-/
import YamlDecode.Document.Line
import YamlDecode.Json
import YamlDecode.Proofs.Number.Numeral
import YamlDecode.Proofs.Text.Whole

namespace YamlDecode

open YamlDecode.Text

/-! ### Writing -/

/-- A value without fractions, whose integers fit a word, whose objects have different names,
and whose collections stand at most `depth` deep in each other. -/
inductive Json.Plain : Nat → Json → Prop
  | null {depth : Nat} : Plain depth .null
  | bool {depth : Nat} (b : Bool) : Plain depth (.bool b)
  | int {depth : Nat} {n : Int} (low : -2 ^ 63 ≤ n) (high : n < 2 ^ 64) : Plain depth (.int n)
  | str {depth : Nat} (s : String) : Plain depth (.str s)
  | arr {depth : Nat} {items : List Json} (each : ∀ v ∈ items, Plain depth v) :
      Plain (depth + 1) (.arr items)
  | obj {depth : Nat} {members : List (String × Json)} (names : (members.map Prod.fst).Nodup)
      (each : ∀ m ∈ members, Plain depth m.2) : Plain (depth + 1) (.obj members)

mutual

/-- A value on one line.  Fractions are not written. -/
def Json.flow : Json → List Char
  | .null => ['n', 'u', 'l', 'l']
  | .bool true => ['t', 'r', 'u', 'e']
  | .bool false => ['f', 'a', 'l', 's', 'e']
  | .int n => writeInteger n
  | .float _ => []
  | .str s => Quoted.write s.toList
  | .arr items => '[' :: (commaJoin (flowItems items) ++ [']'])
  | .obj members => '{' :: (commaJoin (flowMembers members) ++ ['}'])

/-- The items of an array, each on one line. -/
def Json.flowItems : List Json → List (List Char)
  | [] => []
  | v :: vs => v.flow :: Json.flowItems vs

/-- The members of an object, each on one line. -/
def Json.flowMembers : List (String × Json) → List (List Char)
  | [] => []
  | (name, v) :: members =>
    (Quoted.write name.toList ++ ([':', ' '] ++ v.flow)) :: Json.flowMembers members

end

/-- A member of an object: its name, a colon and its value. -/
def flowMember (m : String × Json) : List Char :=
  Quoted.write m.1.toList ++ ([':', ' '] ++ m.2.flow)

theorem flowItems_eq (items : List Json) : Json.flowItems items = items.map Json.flow := by
  induction items with
  | nil => rfl
  | cons v items ih => rw [Json.flowItems, ih, List.map_cons]

theorem flowMembers_eq (members : List (String × Json)) :
    Json.flowMembers members = members.map flowMember := by
  induction members with
  | nil => rfl
  | cons m members ih => rw [Json.flowMembers, ih, List.map_cons, flowMember]

theorem flow_arr (items : List Json) :
    (Json.arr items).flow = '[' :: (commaJoin (items.map Json.flow) ++ [']']) := by
  rw [Json.flow, flowItems_eq]

theorem flow_obj (members : List (String × Json)) :
    (Json.obj members).flow = '{' :: (commaJoin (members.map flowMember) ++ ['}']) := by
  rw [Json.flow, flowMembers_eq]

/-! ### What is written is whole -/

theorem word_writeInteger (n : Int) : Word (writeInteger n) := by
  have hdigits : ∀ c ∈ Nat.toDigits 10 n.natAbs, isWordChar c = true := by
    intro c hc
    simp [isWordChar, isDigit_of_mem_toDigits hc]
  unfold writeInteger
  split
  · refine ⟨by simp, ?_⟩
    intro c hc
    rcases List.mem_cons.1 hc with rfl | hc
    · rfl
    · exact hdigits c hc
  · exact ⟨Nat.toDigits_ne_nil, hdigits⟩

theorem word_bool (b : Bool) : Word (Json.bool b).flow := by
  rcases b with - | -
  all_goals exact ⟨by decide, List.all_eq_true.1 rfl⟩

theorem word_null : Word Json.null.flow := ⟨by decide, List.all_eq_true.1 rfl⟩

theorem whole_member {m : String × Json} (h : Whole m.2.flow) : Whole (flowMember m) :=
  .entry (.write m.1.toList) h

theorem whole_arr {items : List Json} (h : ∀ v ∈ items, Whole v.flow) :
    Whole ('[' :: (commaJoin (items.map Json.flow) ++ [']'])) := by
  refine .collection .square ?_
  intro t ht
  obtain ⟨v, hv, rfl⟩ := List.mem_map.1 ht
  exact h v hv

theorem whole_obj {members : List (String × Json)} (h : ∀ m ∈ members, Whole m.2.flow) :
    Whole ('{' :: (commaJoin (members.map flowMember) ++ ['}'])) := by
  refine .collection .curly ?_
  intro t ht
  obtain ⟨m, hm, rfl⟩ := List.mem_map.1 ht
  exact whole_member (h m hm)

theorem Json.Plain.whole {depth : Nat} {v : Json} (h : v.Plain depth) : Whole v.flow := by
  induction h with
  | null => exact word_null.whole
  | bool b => exact (word_bool b).whole
  | @int _ n _ _ => exact (word_writeInteger n).whole
  | str s => exact .write s.toList
  | @arr _ items _ ih =>
      rw [flow_arr]
      exact whole_arr ih
  | @obj _ members _ _ ih =>
      rw [flow_obj]
      exact whole_obj ih

namespace Document

/-! ### On a line of its own

What stands on a line or behind a dash is first looked at for signs of a block collection, a
block scalar, a comment and the start of a document.  Values written on one line show none.
-/

/-- A text that is a value also where a block could start. -/
structure Lone (cs : List Char) : Prop where
  whole : Whole cs
  item : isItem cs = false
  colon : blockColon cs = none
  first : ∀ c ∈ cs.head?, c ≠ '#' ∧ c ≠ '|' ∧ c ≠ '>'
  mark : cs ≠ ['-', '-', '-']

theorem blockColonFrom_of_not_mem {cs : List Char} (h : ':' ∉ cs) :
    ∀ b seen, blockColonFrom b seen cs = none := by
  induction cs with
  | nil => intro b seen; rfl
  | cons c cs ih =>
      intro b seen
      rw [List.mem_cons, not_or] at h
      rw [blockColonFrom, if_neg (by simp [Ne.symm h.1])]
      split
      · rfl
      · exact ih h.2 _ _

theorem lone_word {w : List Char} (h : Word w) (hdash : w ≠ ['-']) (hmark : w ≠ ['-', '-', '-']) :
    Lone w where
  whole := h.whole
  item := by
    unfold isItem
    split
    · exact absurd rfl hdash
    · next rest => exact absurd rfl (ne_of_wordChar (h.all ' ' (by simp)) (d := ' ') rfl)
    · rfl
  colon := by
    obtain ⟨c, rest, rfl⟩ := List.exists_cons_of_ne_nil h.nonempty
    have hne : ∀ d, isWordChar d = false → c ≠ d := fun d => ne_of_wordChar (h.all c (by simp))
    have hcolon : ':' ∉ c :: rest := fun hmem => ne_of_wordChar (h.all _ hmem) (d := ':') rfl rfl
    rw [blockColon, if_neg (by simp [hne '"' rfl, hne '\'' rfl]),
      if_neg (by simp [hne '{' rfl, hne '[' rfl, hne '#' rfl])]
    exact blockColonFrom_of_not_mem hcolon true []
  first := by
    intro c hc
    have hword := h.all c (List.mem_of_mem_head? hc)
    exact ⟨ne_of_wordChar hword rfl, ne_of_wordChar hword rfl, ne_of_wordChar hword rfl⟩
  mark := hmark

theorem lone_write (cs : List Char) : Lone (Quoted.write cs) where
  whole := .write cs
  item := rfl
  colon := blockColon_write_end cs
  first := by
    rintro c ⟨⟩
    decide
  mark := nofun

theorem lone_brackets {opening closing : Char} (hb : Brackets opening closing) {inner : List Char}
    (h : Whole (opening :: inner)) : Lone (opening :: inner) where
  whole := h
  item := by
    rcases hb with - | -
    all_goals rfl
  colon := by
    rcases hb with - | -
    all_goals rfl
  first := by
    rintro c ⟨⟩
    rcases hb with - | -
    all_goals decide
  mark := by
    rcases hb with - | -
    all_goals nofun

/-- What is written for a value is a value wherever it stands. -/
theorem lone_flow {v : Json} {depth : Nat} (h : v.Plain depth) : Lone v.flow := by
  have hwhole := h.whole
  rcases h with - | b | ⟨low, high⟩ | s | each | ⟨names, each⟩
  · exact lone_word word_null (by decide) (by decide)
  · rcases b with - | -
    all_goals exact lone_word (word_bool _) (by decide) (by decide)
  · next n =>
    have hread := readWord_writeInteger low high
    have hne : ∀ cs, readWord cs = none → writeInteger n ≠ cs := by
      intro cs hcs heq
      rw [heq, hcs] at hread
      cases hread
    exact lone_word (word_writeInteger n) (hne _ rfl) (hne _ rfl)
  · exact lone_write s.toList
  · rw [flow_arr] at hwhole ⊢
    exact lone_brackets .square hwhole
  · rw [flow_obj] at hwhole ⊢
    exact lone_brackets .curly hwhole

end Document

end YamlDecode
