/-
Values laid out on lines.

`Block` says how the rows of an array or an object may be laid out at an indentation.  A
layout chooses for each item and each entry anew: a value on the same line, a collection on
deeper lines, an array at the indentation of its key, or a collection that starts behind
the dash.  In the last case the first row of the collection is merged into the row of the
dash, and what it is indented by is where it stands on that line.

The rows of an item or an entry take the layouts of the blocks below as a parameter, so
that what is true of rows at one level needs no induction; `Block` ties the knot.
-/
import YamlDecode.Proofs.Document.Inline
import YamlDecode.Proofs.Document.Rows

namespace YamlDecode.Document

open YamlDecode.Text

/-! ### Layouts -/

/-- A value that stands on the line of its key or its dash: a scalar, or a collection without
items. -/
inductive Leaf : Json → Prop
  | null : Leaf .null
  | bool (b : Bool) : Leaf (.bool b)
  | int {n : Int} (low : -2 ^ 63 ≤ n) (high : n < 2 ^ 64) : Leaf (.int n)
  | str (s : String) : Leaf (.str s)
  | arr : Leaf (.arr [])
  | obj : Leaf (.obj [])

/-- The layouts of values: of an array or an object, at an indentation, in rows. -/
abbrev Layouts := Nat → Json → List Row → Prop

/-- The rows of an item of a sequence indented by `indent`, with blocks laid out by `block`. -/
inductive ItemRows (block : Layouts) (indent : Nat) : Json → List Row → Prop
  /-- A value behind the dash. -/
  | leaf {v : Json} (h : Leaf v) (hwidth : width v.flow ≤ maxInlineWidth) :
      ItemRows block indent v [⟨indent, '-' :: ' ' :: v.flow⟩]
  /-- A collection on deeper lines. -/
  | below {v : Json} {deeper : Nat} {rows : List Row} (hdeeper : indent < deeper)
      (h : block deeper v rows) : ItemRows block indent v (⟨indent, ['-']⟩ :: rows)
  /-- A collection that starts on the line of the dash, `gap` spaces further than it has to. -/
  | beside {v : Json} {first : List Char} {rows : List Row} (gap : Nat)
      (h : block (indent + 2 + gap) v (⟨indent + 2 + gap, first⟩ :: rows)) :
      ItemRows block indent v
        (⟨indent, '-' :: ' ' :: (List.replicate gap ' ' ++ first)⟩ :: rows)

/-- The rows of an entry of a mapping indented by `indent`, with blocks laid out by `block`. -/
inductive EntryRows (block : Layouts) (indent : Nat) : String × Json → List Row → Prop
  /-- A value behind the colon. -/
  | leaf {name : String} {v : Json} (h : Leaf v) (hwidth : width v.flow ≤ maxInlineWidth) :
      EntryRows block indent (name, v)
        [⟨indent, Quoted.write name.toList ++ ':' :: ' ' :: v.flow⟩]
  /-- A collection on deeper lines. -/
  | below {name : String} {v : Json} {deeper : Nat} {rows : List Row} (hdeeper : indent < deeper)
      (h : block deeper v rows) :
      EntryRows block indent (name, v) (⟨indent, Quoted.write name.toList ++ [':']⟩ :: rows)
  /-- An array on lines that are indented like the key. -/
  | level {name : String} {items : List Json} {rows : List Row}
      (h : block indent (.arr items) rows) :
      EntryRows block indent (name, .arr items)
        (⟨indent, Quoted.write name.toList ++ [':']⟩ :: rows)

/-- The rows of several things, one after the other. -/
inductive RowsOf {α : Type} (rowsOf : α → List Row → Prop) : List α → List Row → Prop
  | nil : RowsOf rowsOf [] []
  | cons {x : α} {xs : List α} {rows rest : List Row} (first : rowsOf x rows)
      (next : RowsOf rowsOf xs rest) : RowsOf rowsOf (x :: xs) (rows ++ rest)

/-- The rows of an array or an object that has items, but not too many. -/
inductive CollectionRows (block : Layouts) : Layouts
  | arr {indent : Nat} {items : List Json} {rows : List Row} (nonempty : items ≠ [])
      (count : items.length ≤ maxItems) (each : RowsOf (ItemRows block indent) items rows) :
      CollectionRows block indent (.arr items) rows
  | obj {indent : Nat} {members : List (String × Json)} {rows : List Row}
      (nonempty : members ≠ []) (count : members.length ≤ maxItems)
      (names : (members.map Prod.fst).Nodup)
      (each : RowsOf (EntryRows block indent) members rows) :
      CollectionRows block indent (.obj members) rows

/-- The rows of a collection in which collections stand at most `depth` deep in each other,
the whole included. -/
def Block : Nat → Layouts
  | 0 => fun _ _ _ => False
  | depth + 1 => CollectionRows (Block depth)

/-! ### What rows look like -/

theorem plain_leaf {v : Json} (h : Leaf v) : v.Plain 1 := by
  rcases h with - | b | ⟨low, high⟩ | s | - | -
  · exact .null
  · exact .bool b
  · exact .int low high
  · exact .str s
  · exact .arr (by simp)
  · exact .obj (by simp) (by simp)

theorem startsBlock_of_isItem {text : List Char} (h : isItem text = true) :
    startsBlock text = true := by
  have hstrip : (stripComment text).isEmpty = false := by
    unfold isItem at h
    split at h
    · exact isEmpty_stripComment rfl (by decide) _
    · exact isEmpty_stripComment rfl (by decide) _
    · cases h
  rw [startsBlock, hstrip, h]
  rfl

theorem startsBlock_key (name : List Char) {tail : List Char} (h : atBlank tail = true) :
    startsBlock (Quoted.write name ++ ':' :: tail) = true := by
  have hstrip : (stripComment (Quoted.write name ++ ':' :: tail)).isEmpty = false :=
    isEmpty_stripComment rfl (by decide) _
  rw [startsBlock, hstrip, blockColon_write name h]
  simp

/-- What readers rely on in a layout of blocks.  Its rows can be lines, and the first of them
has the indentation of the block and starts a block, a sequence for an array. -/
structure Regular (block : Layouts) : Prop where
  sound : ∀ {indent : Nat} {v : Json} {rows : List Row}, block indent v rows → ∀ r ∈ rows, r.Sound
  head : ∀ {indent : Nat} {v : Json} {rows : List Row}, block indent v rows →
    ∃ text rest, rows = ⟨indent, text⟩ :: rest ∧ startsBlock text = true
  headItem : ∀ {indent : Nat} {items : List Json} {rows : List Row},
    block indent (.arr items) rows → ∃ text rest, rows = ⟨indent, text⟩ :: rest ∧ isItem text = true

section

variable {block : Layouts} {indent : Nat} {rows : List Row}

theorem ItemRows.head {v : Json} (h : ItemRows block indent v rows) :
    ∃ text rest, rows = ⟨indent, text⟩ :: rest ∧ isItem text = true := by
  rcases h with - | - | -
  all_goals exact ⟨_, _, rfl, rfl⟩

theorem EntryRows.head {m : String × Json} (h : EntryRows block indent m rows) :
    ∃ tail rest, rows = ⟨indent, Quoted.write m.1.toList ++ ':' :: tail⟩ :: rest ∧
      atBlank tail = true := by
  rcases h with - | - | -
  all_goals exact ⟨_, _, rfl, rfl⟩

theorem sound_dash (gap : List Char) {text : List Char} (hgap : '\n' ∉ gap) (h : Tight text)
    (hline : '\n' ∉ text) : Row.Sound ⟨indent, '-' :: (gap ++ text)⟩ where
  tight := (tight_singleton (c := '-') rfl).append h
  newline := by simp [hgap, hline]
  comment := nofun

theorem sound_key (name gap : List Char) {text : List Char} (hgap : '\n' ∉ gap)
    (h : Tight text) (hline : '\n' ∉ text) :
    Row.Sound ⟨indent, Quoted.write name ++ (gap ++ text)⟩ where
  tight := (Whole.write name).tight.append h
  newline := by simp [hgap, hline, (Whole.write name).newline]
  comment := nofun

theorem ItemRows.sound (hblock : Regular block) {v : Json} (h : ItemRows block indent v rows) :
    ∀ r ∈ rows, r.Sound := by
  rcases h with ⟨hleaf, -⟩ | ⟨-, h⟩ | ⟨gap, h⟩
  · have hwhole := (plain_leaf hleaf).whole
    intro r hr
    rcases List.mem_singleton.1 hr with rfl
    exact sound_dash [' '] (by decide) hwhole.tight hwhole.newline
  · intro r hr
    rcases List.mem_cons.1 hr with rfl | hr
    · exact ⟨tight_singleton rfl, by simp, nofun⟩
    · exact hblock.sound h r hr
  · have hsound := hblock.sound h
    intro r hr
    rcases List.mem_cons.1 hr with rfl | hr
    · have hfirst := hsound _ List.mem_cons_self
      exact sound_dash (' ' :: List.replicate gap ' ') (by simp) hfirst.tight hfirst.newline
    · exact hsound r (List.mem_cons_of_mem _ hr)

theorem EntryRows.sound (hblock : Regular block) {m : String × Json}
    (h : EntryRows block indent m rows) : ∀ r ∈ rows, r.Sound := by
  have hkey : ∀ name : String, Row.Sound ⟨indent, Quoted.write name.toList ++ [':']⟩ :=
    fun name => sound_key name.toList [] (by decide) (tight_singleton rfl) (by decide)
  rcases h with ⟨hleaf, -⟩ | ⟨-, h⟩ | h
  · have hwhole := (plain_leaf hleaf).whole
    intro r hr
    rcases List.mem_singleton.1 hr with rfl
    exact sound_key _ [':', ' '] (by decide) hwhole.tight hwhole.newline
  · intro r hr
    rcases List.mem_cons.1 hr with rfl | hr
    · exact hkey _
    · exact hblock.sound h r hr
  · intro r hr
    rcases List.mem_cons.1 hr with rfl | hr
    · exact hkey _
    · exact hblock.sound h r hr

theorem RowsOf.sound {α : Type} {rowsOf : α → List Row → Prop} {xs : List α}
    (hrows : ∀ x rows, rowsOf x rows → ∀ r ∈ rows, r.Sound) (h : RowsOf rowsOf xs rows) :
    ∀ r ∈ rows, r.Sound := by
  induction h with
  | nil => exact fun r hr => absurd hr (by simp)
  | cons first _ ih =>
      intro r hr
      rcases List.mem_append.1 hr with hr | hr
      · exact hrows _ _ first r hr
      · exact ih r hr

end

theorem Regular.collection {block : Layouts} (h : Regular block) :
    Regular (CollectionRows block) where
  sound := by
    rintro indent v rows (⟨-, -, each⟩ | ⟨-, -, -, each⟩)
    · exact each.sound fun _ _ hrows => hrows.sound h
    · exact each.sound fun _ _ hrows => hrows.sound h
  head := by
    rintro indent v rows (⟨nonempty, -, each⟩ | ⟨nonempty, -, -, each⟩)
    · rcases each with - | ⟨first, next⟩
      · exact absurd rfl nonempty
      · obtain ⟨text, rest, rfl, htext⟩ := first.head
        exact ⟨text, _, rfl, startsBlock_of_isItem htext⟩
    · rcases each with - | ⟨first, next⟩
      · exact absurd rfl nonempty
      · obtain ⟨tail, rest, rfl, htail⟩ := first.head
        exact ⟨_, _, rfl, startsBlock_key _ htail⟩
  headItem := by
    rintro indent items rows (⟨nonempty, -, each⟩ | -)
    rcases each with - | ⟨first, next⟩
    · exact absurd rfl nonempty
    · obtain ⟨text, rest, rfl, htext⟩ := first.head
      exact ⟨text, _, rfl, htext⟩

theorem regular_block (depth : Nat) : Regular (Block depth) := by
  induction depth with
  | zero => exact ⟨fun h => h.elim, fun h => h.elim, fun h => h.elim⟩
  | succ depth ih => exact ih.collection

end YamlDecode.Document
