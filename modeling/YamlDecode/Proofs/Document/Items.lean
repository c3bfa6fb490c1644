/-
The items of a collection, one after the other.

`Reads` says that items are read until there is no further one, and which value each of
them holds.  It knows no limit and gathers nothing, so it is what one shows of a particular
kind of collection, by induction on the values; `Reads.readItems` is what follows for the
loop, as long as the items are not too many.
-/
import Mathlib.Data.List.Forall2
import YamlDecode.Document.Items
import YamlDecode.Proofs.Decode.Untyped

namespace YamlDecode.Document

variable {σ α : Type}

/-- From one state to another, items are read that hold the values of a list. -/
inductive Reads (next : σ → Except ParseError (Option (Item × σ))) (holds : α → Item → Prop) :
    σ → List α → σ → Prop
  | nil {s : σ} (stop : next s = .ok none) : Reads next holds s [] s
  | cons {s s' s'' : σ} {item : Item} {x : α} {xs : List α}
      (first : next s = .ok (some (item, s'))) (value : holds x item)
      (rest : Reads next holds s' xs s'') : Reads next holds s (x :: xs) s''

theorem Reads.readItems {next : σ → Except ParseError (Option (Item × σ))}
    {holds : α → Item → Prop} {s s' : σ} {xs : List α} (h : Reads next holds s xs s') :
    ∃ items, List.Forall₂ holds xs items ∧
      ∀ (c : Collection) (room : Nat) (done : List (Rose Label)), xs.length ≤ room →
        readItems c next room done s = .ok (done.reverse ++ items.flatMap Item.nodes, s') := by
  induction h with
  | nil stop =>
      refine ⟨[], .nil, ?_⟩
      intro c room done _
      rw [Document.readItems, stop, List.flatMap_nil, List.append_nil]
  | @cons s s' s'' item x xs first value rest ih =>
      obtain ⟨items, hholds, hread⟩ := ih
      refine ⟨item :: items, .cons value hholds, ?_⟩
      intro c room done hroom
      rw [List.length_cons] at hroom
      obtain ⟨room, rfl⟩ : ∃ n, room = n + 1 := ⟨room - 1, by omega⟩
      rw [Document.readItems, first]
      show Document.readItems c next room _ s' = _
      rw [hread c room _ (by omega), List.reverse_append, List.reverse_reverse, List.append_assoc,
        List.flatMap_cons]

/-! ### What items hold -/

/-- The item of a sequence holds a value. -/
def HoldsItem (v : Json) (item : Item) : Prop := ∃ node, item.nodes = [node] ∧ Means node v

/-- The entry of a mapping holds a member of an object. -/
def HoldsMember (m : String × Json) (item : Item) : Prop :=
  ∃ key node, item.nodes = [key, node] ∧ (key.label.tag = .str ∧ key.label.value = m.1) ∧
    Means node m.2

/-- A name that is read as a text is the key of its member. -/
theorem holdsMember_leaf {m : String × Json} {node : Rose Label} (h : Means node m.2)
    (start line column : Nat) :
    HoldsMember m ⟨start, [leaf .str m.1.toList line column, node]⟩ :=
  ⟨_, node, rfl, ⟨rfl, String.ofList_toList⟩, h⟩

theorem meansItems_of_holds {vs : List Json} {items : List Item}
    (h : List.Forall₂ HoldsItem vs items) : MeansItems (items.flatMap Item.nodes) vs := by
  induction h with
  | nil => exact trivial
  | cons hfirst _ ih =>
      obtain ⟨node, hnodes, hmeans⟩ := hfirst
      rw [List.flatMap_cons, hnodes]
      exact ⟨hmeans, ih⟩

theorem meansMembers_of_holds {members : List (String × Json)} {items : List Item}
    (h : List.Forall₂ HoldsMember members items) :
    MeansMembers (items.flatMap Item.nodes) members := by
  induction h with
  | nil => exact trivial
  | cons hfirst _ ih =>
      obtain ⟨key, node, hnodes, hkey, hmeans⟩ := hfirst
      rw [List.flatMap_cons, hnodes]
      exact ⟨hkey, hmeans, ih⟩

end YamlDecode.Document
