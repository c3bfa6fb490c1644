/-
Targets stored as JSON are read back.

A stored target may have passed through other hands, and then there may be more in it than was
written: members of names that mean nothing to the object that they were added to.  `Surplus` says
that of two values.  It goes along the types of what is stored, since the same name means something
in one object and nothing in another, and a shape knows no parts but those of its own kind.

Readers look members up by the names that their object declares, and under such a name nothing can
have been added (`SurplusMembers.find_plain`, `SurplusMembers.find_inner`).  That includes the names
that are declared but left out, whose absence means something too.  What a member holds may have
more in it in turn, so reading back is one induction over target, shape, field and list of fields.

Targets and fields may also come as arrays.  Their readers go down an array by themselves, since the
recursion is on what is read, and come to what they would of the object that it stands for.
-/
import YamlDecode.Target.Json

namespace YamlDecode

/-! ### Names that mean something -/

/-- The names of the parts of a shape. -/
def ShapeKind.parts : ShapeKind → List String
  | .sequence => ["element"]
  | .map => ["key", "value"]
  | .struct => ["fields"]
  | .any | .bool | .int | .uint | .float | .string => []

/-- What is stored as an object. -/
inductive Stored where
  | target
  | shape
  | field
  deriving DecidableEq, Repr

namespace Stored

/-- The names that mean something in an object of the type; in a shape that depends on its kind. -/
def declared : Stored → List (String × Json) → List String
  | .target, _ => ["name", "shape"]
  | .shape, members =>
    "kind" :: ((Json.find "kind" members).bind (ShapeKind.ofJson? false)).elim [] ShapeKind.parts
  | .field, _ => ["key", "type", "aliases", "inline"]

/-- The type of the objects that the member of a name holds, alone or in an array. -/
def inner? : Stored → String → Option Stored
  | .target, name => if name = "shape" then some .shape else none
  | .shape, name =>
    if name = "fields" then some .field
    else if name = "element" ∨ name = "key" ∨ name = "value" then some .target
    else none
  | .field, name => if name = "type" then some .target else none

end Stored

mutual

/-- The second value is the first one with further members in any of its objects, none of them of a
name that means something there. -/
inductive Surplus : Stored → Json → Json → Prop
  | refl (T : Stored) (j : Json) : Surplus T j j
  | obj {T : Stored} {members members' : List (String × Json)}
      (h : SurplusMembers T (T.declared members) members members') :
      Surplus T (.obj members) (.obj members')
  | arr {T : Stored} {items items' : List Json} (h : SurplusItems T items items') :
      Surplus T (.arr items) (.arr items')

inductive SurplusMembers :
    Stored → List String → List (String × Json) → List (String × Json) → Prop
  | nil (T : Stored) (declared : List String) : SurplusMembers T declared [] []
  | plain {T : Stored} {declared : List String} {members members' : List (String × Json)}
      (name : String) (v : Json) (h : SurplusMembers T declared members members') :
      SurplusMembers T declared ((name, v) :: members) ((name, v) :: members')
  | inner {T S : Stored} {declared : List String} {members members' : List (String × Json)}
      {name : String} {v v' : Json} (htype : T.inner? name = some S) (hv : Surplus S v v')
      (h : SurplusMembers T declared members members') :
      SurplusMembers T declared ((name, v) :: members) ((name, v') :: members')
  | added {T : Stored} {declared : List String} {members members' : List (String × Json)}
      {name : String} (hname : name ∉ declared) (v : Json)
      (h : SurplusMembers T declared members members') :
      SurplusMembers T declared members ((name, v) :: members')

inductive SurplusItems : Stored → List Json → List Json → Prop
  | nil (T : Stored) : SurplusItems T [] []
  | cons {T : Stored} {item item' : Json} {items items' : List Json} (h : Surplus T item item')
      (hs : SurplusItems T items items') : SurplusItems T (item :: items) (item' :: items')

end

theorem SurplusMembers.refl (T : Stored) (declared : List String) :
    ∀ members : List (String × Json), SurplusMembers T declared members members
  | [] => .nil T declared
  | (name, v) :: members => .plain name v (refl T declared members)

theorem SurplusItems.refl (T : Stored) : ∀ items : List Json, SurplusItems T items items
  | [] => .nil T
  | item :: items => .cons (.refl T item) (refl T items)

theorem Surplus.members {T : Stored} {members : List (String × Json)} {j : Json}
    (h : Surplus T (.obj members) j) :
    ∃ members', j = .obj members' ∧ SurplusMembers T (T.declared members) members members' := by
  cases h with
  | refl => exact ⟨members, rfl, .refl T _ members⟩
  | obj h => exact ⟨_, rfl, h⟩

theorem Surplus.items {T : Stored} {items : List Json} {j : Json} (h : Surplus T (.arr items) j) :
    ∃ items', j = .arr items' ∧ SurplusItems T items items' := by
  cases h with
  | refl => exact ⟨items, rfl, .refl T items⟩
  | arr h => exact ⟨_, rfl, h⟩

/-! ### Looking members up -/

section Find

variable {T S : Stored} {declared : List String} {name : String} (hname : name ∈ declared)
include hname

/-- A member that holds no object is found as it was, or found to be left out. -/
theorem SurplusMembers.find_plain (hplain : T.inner? name = none) :
    ∀ {members members' : List (String × Json)}, SurplusMembers T declared members members' →
      Json.find name members' = Json.find name members
  | _, _, .nil _ _ => rfl
  | _, _, .plain key v h => by rw [Json.find, Json.find, find_plain hplain h]
  | _, _, @inner _ _ _ _ _ key _ _ htype _ h => by
      have hne : key ≠ name := by
        rintro rfl
        cases hplain.symm.trans htype
      rw [Json.find, Json.find, if_neg hne, if_neg hne, find_plain hplain h]
  | _, _, @added _ _ _ _ key hkey v h => by
      have hne : key ≠ name := by
        rintro rfl
        exact hkey hname
      rw [Json.find, if_neg hne, find_plain hplain h]

/-- A member that holds objects is found, perhaps with more in them. -/
theorem SurplusMembers.find_inner (hinner : T.inner? name = some S) {v : Json} :
    ∀ {members members' : List (String × Json)}, SurplusMembers T declared members members' →
      Json.find name members = some v → ∃ v', Json.find name members' = some v' ∧ Surplus S v v'
  | _, _, .nil _ _, hfind => nomatch hfind
  | _, _, .plain key w h, hfind => by
      rw [Json.find] at hfind ⊢
      by_cases hkey : key = name
      · rw [if_pos hkey] at hfind ⊢
        exact ⟨w, rfl, Option.some.inj hfind ▸ .refl S w⟩
      · rw [if_neg hkey] at hfind ⊢
        exact find_inner hinner h hfind
  | _, _, @inner _ _ _ _ _ key w w' htype hw h, hfind => by
      rw [Json.find] at hfind ⊢
      by_cases hkey : key = name
      · subst hkey
        rw [if_pos rfl] at hfind ⊢
        obtain rfl := Option.some.inj hfind
        obtain rfl := Option.some.inj (hinner.symm.trans htype)
        exact ⟨w', rfl, hw⟩
      · rw [if_neg hkey] at hfind ⊢
        exact find_inner hinner h hfind
  | _, _, @added _ _ _ _ key hkey w h, hfind => by
      have hne : key ≠ name := by
        rintro rfl
        exact hkey hname
      rw [Json.find, if_neg hne]
      exact find_inner hinner h hfind

end Find

/-! ### Readers look members up -/

theorem Shape.member?_eq (nested : Bool) : ∀ members : List (String × Json),
    Shape.member? nested members = (Json.find "shape" members).bind (Shape.read? nested)
  | [] => by rw [Shape.member?, Json.find, Option.bind_none]
  | (key, v) :: rest => by
      rw [Shape.member?, Json.find, Shape.member?_eq nested rest]
      split <;> rfl

theorem Target.member?_eq (nested : Bool) (name : String) : ∀ members : List (String × Json),
    Target.member? nested name members = (Json.find name members).bind (Target.read? nested)
  | [] => by rw [Target.member?, Json.find, Option.bind_none]
  | (key, v) :: rest => by
      rw [Target.member?, Json.find, Target.member?_eq nested name rest]
      split <;> rfl

theorem Field.member?_eq : ∀ members : List (String × Json),
    Field.member? members = (Json.find "fields" members).bind Field.arrOfJson?
  | [] => by rw [Field.member?, Json.find, Option.bind_none]
  | (key, v) :: rest => by
      rw [Field.member?, Json.find, Field.member?_eq rest]
      split <;> rfl

theorem ShapeKind.ofJson?_name (k : ShapeKind) (numbered : Bool) :
    ShapeKind.ofJson? numbered (.str k.name) = some k := by
  cases k <;> rfl

theorem items?_str? (ss : List String) :
    Json.items? Json.str? (.arr (ss.map .str)) = some ss := by
  show (ss.map Json.str).mapM Json.str? = some ss
  induction ss with
  | nil => rfl
  | cons s ss ih => rw [List.map_cons, List.mapM_cons, ih]; rfl

/-- What is declared in a stored shape of a kind, and what is found there. -/
theorem Surplus.ofKind {k : ShapeKind} {parts : List (String × Json)} {j : Json}
    (h : Surplus .shape (k.toJson parts) j) :
    ∃ members, j = .obj members ∧ Json.find "kind" members = some (.str k.name) ∧
      SurplusMembers .shape ("kind" :: k.parts) (("kind", .str k.name) :: parts) members := by
  obtain ⟨members, rfl, hmembers⟩ := h.members
  have hkind : Json.find "kind" (("kind", Json.str k.name) :: parts) = some (.str k.name) := by
    rw [Json.find, if_pos rfl]
  rw [Stored.declared, hkind, Option.bind_some, k.ofJson?_name] at hmembers
  refine ⟨members, rfl, ?_, hmembers⟩
  rw [hmembers.find_plain List.mem_cons_self rfl, hkind]

/-! ### Reading back -/

/-- A shape of a kind without parts. -/
theorem Shape.read?_bare {k : ShapeKind} {shape : Shape} {j : Json} (nested : Bool)
    (hbare : k.bare? = some shape) (h : Surplus .shape (k.toJson []) j) :
    Shape.read? nested j = some shape := by
  obtain ⟨members, rfl, hkind, -⟩ := h.ofKind
  rw [Shape.read?, hkind, Option.bind_some, k.ofJson?_name]
  cases k with
  | any | bool | int | uint | float | string => exact hbare
  | sequence | map | struct => cases hbare

/-- Of what a field may leave out, what is found is what is not usual. -/
theorem Field.find_written (key : String) (target : Json) (aliases : List String) (inlined : Bool) :
    let written := [("key", Json.str key), ("type", target)]
      ++ (if aliases.isEmpty then [] else [("aliases", .arr (aliases.map Json.str))])
      ++ if inlined then [("inline", .bool true)] else []
    Json.find "aliases" written =
        (if aliases.isEmpty then none else some (.arr (aliases.map Json.str))) ∧
      Json.find "inline" written = if inlined then some (.bool true) else none := by
  cases aliases with
  | nil => cases inlined <;> exact ⟨rfl, rfl⟩
  | cons a rest => cases inlined <;> exact ⟨rfl, rfl⟩

mutual

theorem Target.read?_surplus : ∀ (t : Target) (nested : Bool) {j : Json},
    Surplus .target t.toJson j → Target.read? nested j = some t
  | ⟨name, shape⟩, nested, j, h => by
      rw [Target.toJson] at h
      obtain ⟨members, rfl, hmembers⟩ := h.members
      have hname : Json.find "name" members = some (.str name) :=
        hmembers.find_plain (by simp [Stored.declared]) rfl
      obtain ⟨s, hs, hshape⟩ : ∃ s, Json.find "shape" members = some s ∧
          Surplus .shape shape.toJson s :=
        hmembers.find_inner (by simp [Stored.declared]) rfl rfl
      rw [Target.read?, Shape.member?_eq, hname, hs, Option.bind_some, Option.bind_some,
        Shape.read?_surplus shape nested hshape]
      rfl

theorem Shape.read?_surplus : ∀ (shape : Shape) (nested : Bool) {j : Json},
    Surplus .shape shape.toJson j → Shape.read? nested j = some shape
  | .any, nested, _, h => Shape.read?_bare nested rfl h
  | .bool, nested, _, h => Shape.read?_bare nested rfl h
  | .int, nested, _, h => Shape.read?_bare nested rfl h
  | .uint, nested, _, h => Shape.read?_bare nested rfl h
  | .float, nested, _, h => Shape.read?_bare nested rfl h
  | .string, nested, _, h => Shape.read?_bare nested rfl h
  | .sequence element, nested, j, h => by
      rw [Shape.toJson] at h
      obtain ⟨members, rfl, hkind, hmembers⟩ := h.ofKind
      obtain ⟨e, he, helement⟩ : ∃ e, Json.find "element" members = some e ∧
          Surplus .target element.toJson e :=
        hmembers.find_inner (by simp [ShapeKind.parts]) rfl rfl
      rw [Shape.read?, hkind, Option.bind_some, ShapeKind.ofJson?_name]
      show (Target.member? true "element" members).bind _ = _
      rw [Target.member?_eq, he, Option.bind_some, Target.read?_surplus element true helement]
      rfl
  | .map key value, nested, j, h => by
      rw [Shape.toJson] at h
      obtain ⟨members, rfl, hkind, hmembers⟩ := h.ofKind
      obtain ⟨k, hk, hkey⟩ : ∃ k, Json.find "key" members = some k ∧
          Surplus .target key.toJson k :=
        hmembers.find_inner (by simp [ShapeKind.parts]) rfl rfl
      obtain ⟨v, hv, hvalue⟩ : ∃ v, Json.find "value" members = some v ∧
          Surplus .target value.toJson v :=
        hmembers.find_inner (by simp [ShapeKind.parts]) rfl rfl
      rw [Shape.read?, hkind, Option.bind_some, ShapeKind.ofJson?_name]
      show (Target.member? true "key" members).bind _ = _
      rw [Target.member?_eq, Target.member?_eq, hk, hv, Option.bind_some, Option.bind_some,
        Target.read?_surplus key true hkey, Target.read?_surplus value true hvalue]
      rfl
  | .struct fields, nested, j, h => by
      rw [Shape.toJson] at h
      obtain ⟨members, rfl, hkind, hmembers⟩ := h.ofKind
      obtain ⟨fs, hfs, hfields⟩ : ∃ fs, Json.find "fields" members = some fs ∧
          Surplus .field (.arr (Field.listToJson fields)) fs :=
        hmembers.find_inner (by simp [ShapeKind.parts]) rfl rfl
      obtain ⟨items, rfl, hitems⟩ := hfields.items
      rw [Shape.read?, hkind, Option.bind_some, ShapeKind.ofJson?_name]
      show (Field.member? members).bind _ = _
      rw [Field.member?_eq, hfs, Option.bind_some, Field.arrOfJson?,
        Field.listOfJson?_surplus fields hitems]
      rfl

theorem Field.read?_surplus : ∀ (f : Field) (nested : Bool) {j : Json},
    Surplus .field f.toJson j → Field.read? nested j = some f
  | ⟨key, target, aliases, inlined⟩, nested, j, h => by
      rw [Field.toJson] at h
      obtain ⟨members, rfl, hmembers⟩ := h.members
      have hkey : Json.find "key" members = some (.str key) :=
        hmembers.find_plain (by simp [Stored.declared]) rfl
      obtain ⟨t, ht, htarget⟩ : ∃ t, Json.find "type" members = some t ∧
          Surplus .target target.toJson t :=
        hmembers.find_inner (by simp [Stored.declared]) rfl rfl
      obtain ⟨hfound, hfound'⟩ := Field.find_written key target.toJson aliases inlined
      have haliases : Json.getD? members "aliases" [] (Json.items? Json.str?) = some aliases := by
        rw [Json.getD?, hmembers.find_plain (by simp [Stored.declared]) rfl, hfound]
        cases aliases with
        | nil => rfl
        | cons a rest => exact items?_str? (a :: rest)
      have hinlined : Json.getD? members "inline" false Json.bool? = some inlined := by
        rw [Json.getD?, hmembers.find_plain (by simp [Stored.declared]) rfl, hfound']
        cases inlined <;> rfl
      rw [Field.read?, Target.member?_eq, hkey, ht, Option.bind_some, Option.bind_some,
        Target.read?_surplus target nested htarget, haliases, hinlined]
      rfl

theorem Field.listOfJson?_surplus : ∀ (fields : List Field) {items : List Json},
    SurplusItems .field (Field.listToJson fields) items → Field.listOfJson? items = some fields
  | [], _, .nil _ => rfl
  | f :: fields, _, .cons hf hfields => by
      rw [Field.listOfJson?, Field.read?_surplus f true hf,
        Field.listOfJson?_surplus fields hfields]
      rfl

end

/-! ### Arrays in the place of objects -/

theorem Json.record?_of_lt {names : List String} {items : List Json}
    (h : names.length < items.length) : (Json.arr items).record? names = none :=
  if_neg (Nat.not_le.2 h)

/-- An array is read as the object whose members it lists. -/
theorem Target.read?_record (nested : Bool) (j : Json) :
    Target.read? nested j =
      (j.record? ["name", "shape"]).bind fun members => Target.read? nested (.obj members) := by
  cases j with
  | obj members => rfl
  | arr items =>
      rcases items with - | ⟨name, - | ⟨shape, - | ⟨extra, rest⟩⟩⟩
      · rfl
      · simp [Json.record?, Target.read?, Shape.member?]
      · rfl
      · rw [Json.record?_of_lt (by simp only [List.length_cons, List.length_nil]; omega)]
        rfl
  | null | bool | int | float | str => rfl

theorem Field.read?_record (nested : Bool) (j : Json) :
    Field.read? nested j = (j.record? ["key", "type", "aliases", "inline"]).bind fun members =>
      Field.read? nested (.obj members) := by
  cases j with
  | obj members => rfl
  | arr items =>
      rcases items with - | ⟨key, - | ⟨target, - | ⟨aliases, - | ⟨inlined, - | ⟨extra, rest⟩⟩⟩⟩⟩
      · rfl
      · simp [Json.record?, Field.read?, Target.member?]
      · rfl
      · simp [Json.record?, Field.read?, Field.unusual?, Target.member?, Json.find, Json.getD?,
          Option.bind_assoc]
      · simp [Json.record?, Field.read?, Field.unusual?, Target.member?, Json.find, Json.getD?,
          Option.bind_assoc]
      · rw [Json.record?_of_lt (by simp only [List.length_cons, List.length_nil]; omega)]
        simp [Field.read?, Field.unusual?]
  | null | bool | int | float | str => rfl

end YamlDecode
