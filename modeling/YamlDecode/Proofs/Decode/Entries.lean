/-
A map has one member for each entry.

The keys of a mapping are compared by their texts, but a member of a map is named by what its key
decodes to, if that is a text.  Were the two to differ, members of different keys could have one
name, and all but one of them would be lost.  They do not differ: a text that comes out of decoding
a node is the node's own text (`eq_value_of_valueIn`), whatever the target of the keys asks for and
however little tags and texts agree in a tree built by hand.

So an entry can be read by itself.  `MemberOf` says which member it gives, and a mapping decodes to
the members of its entries, in order, as soon as its keys differ and each entry has one.
-/
import YamlDecode.Proofs.Decode.Listing

namespace YamlDecode

open YamlDecode.Tree

variable {t : Tree}

/-- The member that an entry of a mapping gives in a map: it is named by the text of the key, which
can be decoded, and it holds what the value decodes to. -/
structure MemberOf (options : Options) (key value : Target) (e : Ref t × Ref t)
    (m : String × Json) : Prop where
  name : m.1 = e.1.value
  key : ∃ k, (Pass.assign options key e.1.view).result = .ok k
  value : (Pass.assign options value e.2.view).result = .ok m.2

section MemberOf

variable {options : Options} {key value : Target}

theorem memberOf_iff {e : Ref t × Ref t} {m : String × Json} :
    MemberOf options key value e m ↔
      (errorsIn options.knownFields key e.1.view = [] ∧
        errorsIn options.knownFields value e.2.view = []) ∧
          m = (e.1.value, valueIn value e.2.view) := by
  constructor
  · rintro ⟨hname, ⟨k, hkey⟩, hvalue⟩
    obtain ⟨hkey, -⟩ := result_assign_eq_ok.1 hkey
    obtain ⟨hvalue, hdecoded⟩ := result_assign_eq_ok.1 hvalue
    exact ⟨⟨hkey, hvalue⟩, Prod.ext hname hdecoded.symm⟩
  · rintro ⟨⟨hkey, hvalue⟩, rfl⟩
    exact ⟨rfl, ⟨_, result_assign_eq_ok.2 ⟨hkey, rfl⟩⟩, result_assign_eq_ok.2 ⟨hvalue, rfl⟩⟩

/-- Entries give members if they have no errors, and then each of them gives one. -/
theorem forall₂_memberOf {entries : List (Ref t × Ref t)} {members : List (String × Json)} :
    List.Forall₂ (MemberOf options key value) entries members ↔
      (∀ e ∈ entries, errorsIn options.knownFields key e.1.view = [] ∧
        errorsIn options.knownFields value e.2.view = []) ∧
          members = entries.map fun e => (e.1.value, valueIn value e.2.view) := by
  induction entries generalizing members with
  | nil => simp
  | cons e entries ih =>
      cases members with
      | nil => simp
      | cons m members =>
          rw [List.forall₂_cons, ih, memberOf_iff, List.forall_mem_cons, List.map_cons,
            List.cons.injEq]
          tauto

end MemberOf

/--
**A map has one member for each entry of its mapping.**

A mapping decodes into a map if and only if the outcome is an object whose members are those of the
entries: one for each, in order, named by the text of the key and holding what the value decodes to.
No two members have one name, and what a key decodes to does not matter, as long as it can be
decoded.

This is so wherever the mapping stands.  A pass that comes to it decodes it without an error, and
to the same object, if it can be decoded by itself.
-/
theorem assign_members {target key value : Target} (hshape : target.shape = .map key value)
    {r : Ref t} (hmap : r.tag = .map) (options : Options) (v : Json) :
    ((Pass.assign options target r.view).result = .ok v ↔
      ∃ members, v = .obj members ∧ (members.map Prod.fst).Nodup ∧
        List.Forall₂ (MemberOf options key value) r.entries members) ∧
    ∀ s : Array (DecodeError t), (Pass.assign options target r.view).run.run s = (some v, s) ↔
      (Pass.assign options target r.view).result = .ok v := by
  refine ⟨?_, run_assign_eq_iff⟩
  have hnull : r.tag ≠ .null := by
    rw [hmap]
    nofun
  have herrors : errorsIn options.knownFields target r.view = [] ↔
      (r.entries.map fun e => e.1.value).Nodup ∧ ∀ e ∈ r.entries,
        errorsIn options.knownFields key e.1.view = [] ∧
          errorsIn options.knownFields value e.2.view = [] := by
    rw [r.view_eq, errorsIn, if_neg hnull]
    simp only [hshape, if_pos hmap]
    exact entryErrors_view hmap
  have hvalue : valueIn target r.view =
      .obj (r.entries.map fun e => (e.1.value, valueIn value e.2.view)) := by
    rw [r.view_eq, valueIn, if_neg hnull]
    simp only [hshape, entryValues_view hmap]
  rw [result_assign_eq_ok, herrors, hvalue]
  constructor
  · rintro ⟨⟨hdistinct, hentries⟩, rfl⟩
    refine ⟨_, rfl, ?_, forall₂_memberOf.2 ⟨hentries, rfl⟩⟩
    rw [List.map_map]
    exact hdistinct
  · rintro ⟨members, rfl, hdistinct, hmembers⟩
    obtain ⟨hentries, rfl⟩ := forall₂_memberOf.1 hmembers
    rw [List.map_map] at hdistinct
    exact ⟨⟨hdistinct, hentries⟩, rfl⟩

/-- Keys that decode to a text, to null and to an array, in a tree whose tags promise too much. -/
theorem assign_members_mixed :
    ∃ (t : Tree) (r : Ref t) (members : List (String × Json)),
      t = ((((((((Tree.empty.push none ⟨.map, "", 1, 1⟩).push (some 0) ⟨.int, "x", 1, 1⟩).push
        (some 0) ⟨.int, "1", 1, 4⟩).push (some 0) ⟨.null, "~", 2, 1⟩).push (some 0)
        ⟨.int, "2", 2, 4⟩).push (some 0) ⟨.seq, "s", 3, 1⟩).push (some 0) ⟨.null, "", 3, 4⟩).push
        (some 0) ⟨.str, "left over", 4, 1⟩) ∧
      t.root? = some r ∧ r.tag = .map ∧
      decode ⟨true, .firstError⟩ t (.map .any .int) = .ok (.obj members) ∧
      members = [("x", .int 1), ("~", .int 2), ("s", .null)] ∧
      (members.map Prod.fst).Nodup ∧
      List.Forall₂ (MemberOf ⟨true, .firstError⟩ .any .int) r.entries members := by
  obtain ⟨t, r, ht, hroot, hmap, hdecode⟩ :
      ∃ (t : Tree) (r : Ref t),
        t = ((((((((Tree.empty.push none ⟨.map, "", 1, 1⟩).push (some 0) ⟨.int, "x", 1, 1⟩).push
          (some 0) ⟨.int, "1", 1, 4⟩).push (some 0) ⟨.null, "~", 2, 1⟩).push (some 0)
          ⟨.int, "2", 2, 4⟩).push (some 0) ⟨.seq, "s", 3, 1⟩).push (some 0) ⟨.null, "", 3, 4⟩).push
          (some 0) ⟨.str, "left over", 4, 1⟩) ∧
        t.root? = some r ∧ r.tag = .map ∧
        decode ⟨true, .firstError⟩ t (.map .any .int) =
          .ok (.obj [("x", .int 1), ("~", .int 2), ("s", .null)]) :=
    ⟨_, ⟨0, by decide +kernel⟩, rfl, rfl, rfl, by cbv⟩
  have hresult : (Pass.assign ⟨true, .firstError⟩ (.map .any .int) r.view).result =
      .ok (.obj [("x", .int 1), ("~", .int 2), ("s", .null)]) := by
    rw [decode, hroot] at hdecode
    exact hdecode
  obtain ⟨members, hmembers, hdistinct, hall⟩ :=
    (assign_members rfl hmap ⟨true, .firstError⟩ _).1.1 hresult
  obtain rfl := Json.obj.inj hmembers
  exact ⟨t, r, _, ht, hroot, hmap, hdecode, rfl, hdistinct, hall⟩

end YamlDecode
