/-
Brackets, and how they nest.

Brackets nest if each closing one closes the one that was opened last, and none is left open.  A
reader checks that with the closing brackets that are still due, the innermost first; `due` says
which these are behind a text, unless it holds a closing bracket that was not due.

What is due around a text does not matter inside of it (`due_append_base`).  That is why nested texts
stay nested behind one another and between brackets, and why only the brackets of a text matter.
-/
import YamlDecode.Proofs.Text.Whole

namespace YamlDecode.Text

def isBracket (c : Char) : Bool := c == '[' || c == ']' || c == '{' || c == '}'

/-- The brackets of a text, without what stands between them. -/
def bracketsOf (cs : List Char) : List Char := cs.filter isBracket

/-- The bracket that closes what a character opens, if it opens anything. -/
def closer : Char → Option Char
  | '[' => some ']'
  | '{' => some '}'
  | _ => none

/-- The closing brackets that are due behind one more character.  A closing bracket has to be the
next one that is due. -/
def dueStep (stack : List Char) (c : Char) : Option (List Char) :=
  match closer c with
  | some d => some (d :: stack)
  | none =>
    if isBracket c then
      match stack with
      | [] => none
      | d :: rest => if d = c then some rest else none
    else some stack

/-- The closing brackets that are due behind a text. -/
def due (stack cs : List Char) : Option (List Char) := cs.foldlM dueStep stack

/-- Each closing bracket closes the one that was opened last, and none is left open. -/
def Nested (cs : List Char) : Prop := due [] cs = some []

instance : DecidablePred Nested := fun cs => inferInstanceAs (Decidable (due [] cs = some []))

/-! ### The closing brackets that are due -/

theorem due_cons (stack : List Char) (c : Char) (cs : List Char) :
    due stack (c :: cs) = (dueStep stack c).bind fun rest => due rest cs := rfl

theorem due_append (stack a b : List Char) :
    due stack (a ++ b) = (due stack a).bind fun rest => due rest b := List.foldlM_append

theorem dueStep_append_base {stack rest : List Char} {c : Char} (h : dueStep stack c = some rest)
    (base : List Char) : dueStep (stack ++ base) c = some (rest ++ base) := by
  unfold dueStep at h ⊢
  split at h
  · obtain rfl := Option.some.inj h
    rfl
  · split at h
    · next hbracket =>
      rw [if_pos hbracket]
      cases stack with
      | nil => cases h
      | cons d stack =>
          simp only at h
          split at h
          · next hd =>
            obtain rfl := Option.some.inj h
            exact if_pos hd
          · cases h
    · next hbracket =>
      obtain rfl := Option.some.inj h
      rw [if_neg hbracket]

/-- What is due around a text is still due behind it. -/
theorem due_append_base {cs stack rest : List Char} (h : due stack cs = some rest)
    (base : List Char) : due (stack ++ base) cs = some (rest ++ base) := by
  induction cs generalizing stack with
  | nil =>
      obtain rfl := Option.some.inj h
      rfl
  | cons c cs ih =>
      rw [due_cons] at h
      obtain ⟨mid, hstep, hrest⟩ := Option.bind_eq_some_iff.1 h
      rw [due_cons, dueStep_append_base hstep base]
      exact ih hrest

theorem Nested.due_eq {cs : List Char} (h : Nested cs) (stack : List Char) :
    due stack cs = some stack := due_append_base h stack

theorem nested_nil : Nested [] := rfl

theorem Nested.append {a b : List Char} (ha : Nested a) (hb : Nested b) : Nested (a ++ b) := by
  rw [Nested, due_append, ha]
  exact hb

theorem Nested.enclose {opening closing : Char} (hb : Brackets opening closing) {cs : List Char}
    (h : Nested cs) : Nested (opening :: (cs ++ [closing])) := by
  rcases hb with - | -
  all_goals
    rw [Nested, due_cons]
    show due _ (cs ++ _) = _
    rw [due_append, h.due_eq]
    rfl

/-! ### The brackets of a text -/

theorem dueStep_other {c : Char} (h : isBracket c = false) (stack : List Char) :
    dueStep stack c = some stack := by
  have hcloser : closer c = none := by
    unfold closer
    split
    · cases h
    · cases h
    · rfl
  unfold dueStep
  simp [hcloser, h]

/-- Only the brackets of a text matter. -/
theorem due_bracketsOf (cs : List Char) : ∀ stack, due stack (bracketsOf cs) = due stack cs := by
  induction cs with
  | nil => exact fun _ => rfl
  | cons c cs ih =>
      intro stack
      by_cases hc : isBracket c = true
      · rw [bracketsOf, List.filter_cons_of_pos hc, due_cons, due_cons]
        exact congrArg _ (funext ih)
      · rw [bracketsOf, List.filter_cons_of_neg hc, due_cons,
          dueStep_other (Bool.eq_false_iff.2 hc)]
        exact ih stack

theorem nested_bracketsOf {cs : List Char} : Nested (bracketsOf cs) ↔ Nested cs := by
  rw [Nested, due_bracketsOf]
  exact Iff.rfl

theorem bracketsOf_append (a b : List Char) : bracketsOf (a ++ b) = bracketsOf a ++ bracketsOf b :=
  List.filter_append a b

theorem bracketsOf_enclose {opening closing : Char} (hb : Brackets opening closing)
    (cs : List Char) :
    bracketsOf (opening :: (cs ++ [closing])) = opening :: (bracketsOf cs ++ [closing]) := by
  rcases hb with - | -
  all_goals
    rw [bracketsOf, List.filter_cons_of_pos rfl, List.filter_append]
    rfl

theorem bracketsOf_allBlank {cs : List Char} (h : allBlank cs = true) : bracketsOf cs = [] := by
  refine List.filter_eq_nil_iff.2 fun c hc hbracket => ?_
  have hblank : isBlank c = true := List.all_eq_true.1 h c hc
  simp only [isBracket, Bool.or_eq_true, beq_iff_eq] at hbracket
  rcases hbracket with ((rfl | rfl) | rfl) | rfl
  all_goals cases hblank

theorem bracketsOf_trimEnd (cs : List Char) : bracketsOf (trimEnd cs) = bracketsOf cs := by
  obtain ⟨blanks, happend, hblank⟩ := trimEnd_append cs
  have hsplit := bracketsOf_append (trimEnd cs) blanks
  rw [happend, bracketsOf_allBlank hblank, List.append_nil] at hsplit
  exact hsplit.symm

theorem bracketsOf_trim (cs : List Char) : bracketsOf (trim cs) = bracketsOf cs := by
  have hblank : allBlank (cs.takeWhile isBlank) = true := List.all_takeWhile
  have hsplit := bracketsOf_append (cs.takeWhile isBlank) (trimStart cs)
  rw [takeWhile_append_trimStart, bracketsOf_allBlank hblank, List.nil_append] at hsplit
  rw [trim, bracketsOf_trimEnd, hsplit]

/-- A mark between texts adds nothing, unless it is a bracket. -/
theorem bracketsOf_intercalate {mark : Char} (h : isBracket mark = false)
    (ts : List (List Char)) : bracketsOf ([mark].intercalate ts) = ts.flatMap bracketsOf := by
  induction ts with
  | nil => rfl
  | cons t ts ih =>
      cases ts with
      | nil => rw [List.intercalate_singleton, List.flatMap_cons, List.flatMap_nil, List.append_nil]
      | cons u ts =>
          have hmark : bracketsOf [mark] = [] := List.filter_cons_of_neg (by simp [h])
          rw [List.intercalate_cons_cons, bracketsOf_append, bracketsOf_append, hmark, ih,
            List.append_nil]
          rfl

end YamlDecode.Text
