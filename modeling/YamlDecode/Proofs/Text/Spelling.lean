/-
The grammar of quoted texts.

Between its quotes such a text is a row of items, each of which stands for one character: in single
quotes a character or two quotes, in double quotes a character or an escape.  The tables of the
escapes are given here as such, and the digits of a number from the front, so that nothing of the
readers is left in what a text is `Spelled` like.

Either reader takes one item after the other, and so both directions go along its loop.  Only the
loop in double quotes takes an item in several turns: an escape has been read as a whole when its
characters are passed, and the statement about that loop leaves room for them.
-/
import Mathlib.Data.List.Induction
import YamlDecode.Text.Quoted

namespace YamlDecode.Text.Quoted

/-! ### Escapes -/

/-- The letters that stand for a character behind a backslash. -/
def letterEscapes : List (Char × Char) :=
  [('0', '\x00'), ('a', '\x07'), ('b', '\x08'), ('t', '\t'), ('\t', '\t'), ('n', '\n'),
    ('v', '\x0b'), ('f', '\x0c'), ('r', '\r'), ('e', '\x1b'), (' ', ' '), ('"', '"'), ('/', '/'),
    ('\\', '\\'), ('N', '\u0085'), ('_', '\u00a0'), ('L', '\u2028'), ('P', '\u2029')]

/-- The letters that the number of a character follows, and how many digits it has. -/
def numberEscapes : List (Char × Nat) := [('x', 2), ('u', 4), ('U', 8)]

/-- The hexadecimal digits in their order. -/
def lowerDigits : List Char :=
  ['0', '1', '2', '3', '4', '5', '6', '7', '8', '9', 'a', 'b', 'c', 'd', 'e', 'f']

@[inherit_doc lowerDigits]
def upperDigits : List Char :=
  ['0', '1', '2', '3', '4', '5', '6', '7', '8', '9', 'A', 'B', 'C', 'D', 'E', 'F']

/-- The character is the hexadecimal digit of that value. -/
def HexDigit (c : Char) (value : Nat) : Prop :=
  lowerDigits[value]? = some c ∨ upperDigits[value]? = some c

/-- The digits write the number to the base of sixteen. -/
inductive Hexadecimal : List Char → Nat → Prop
  | nil : Hexadecimal [] 0
  | snoc {digits : List Char} {n value : Nat} {c : Char} (front : Hexadecimal digits n)
      (last : HexDigit c value) : Hexadecimal (digits ++ [c]) (16 * n + value)

/-- What stands behind the backslash of an escape that stands for the character. -/
inductive Escape (c : Char) : List Char → Prop
  | letter {letter : Char} (h : (letter, c) ∈ letterEscapes) : Escape c [letter]
  | number {letter : Char} {width : Nat} {digits : List Char} (h : (letter, width) ∈ numberEscapes)
      (hwidth : digits.length = width) (hdigits : Hexadecimal digits c.toNat) :
      Escape c (letter :: digits)

/-! ### Items -/

/-- What stands for the character between double quotes. -/
inductive DoubleItem (c : Char) : List Char → Prop
  | plain (quote : c ≠ '"') (backslash : c ≠ '\\') : DoubleItem c [c]
  | escape {text : List Char} (h : Escape c text) : DoubleItem c ('\\' :: text)

/-- What stands for the character between single quotes. -/
inductive SingleItem (c : Char) : List Char → Prop
  | plain (quote : c ≠ '\'') : SingleItem c [c]
  | doubled (quote : c = '\'') : SingleItem c ['\'', '\'']

/-- The text is items for the characters of the value, a closing quote and the rest. -/
def Spelled (Item : Char → List Char → Prop) (quote : Char) (value rest text : List Char) : Prop :=
  ∃ items, List.Forall₂ Item value items ∧ text = items.flatten ++ quote :: rest

section Spelled

variable {Item : Char → List Char → Prop} {quote c : Char} {value rest text item : List Char}

theorem spelled_nil : Spelled Item quote [] rest (quote :: rest) := ⟨[], .nil, rfl⟩

theorem Spelled.cons (hitem : Item c item) (h : Spelled Item quote value rest text) :
    Spelled Item quote (c :: value) rest (item ++ text) := by
  obtain ⟨items, hitems, rfl⟩ := h
  exact ⟨item :: items, .cons hitem hitems, by simp⟩

/-- What is behind the closing quote may be followed by more. -/
theorem Spelled.append (h : Spelled Item quote value rest text) (more : List Char) :
    Spelled Item quote value (rest ++ more) (text ++ more) := by
  obtain ⟨items, hitems, rfl⟩ := h
  exact ⟨items, hitems, by simp⟩

end Spelled

/-! ### Numbers -/

theorem digitValue_eq_some {c : Char} {value : Nat} :
    digitValue c = some value ↔ HexDigit c value := by
  constructor
  · intro h
    have htable : ∀ n < 103, ∀ value ∈ digitValue (Char.ofNat n), HexDigit (Char.ofNat n) value := by
      unfold HexDigit
      decide
    have hlt : c.toNat < 103 := by
      unfold digitValue at h
      repeat' split at h
      · next hc => exact Nat.lt_of_le_of_lt (UInt32.le_iff_toNat_le.1 hc.2) (by decide)
      · next hc => exact Nat.lt_of_le_of_lt (UInt32.le_iff_toNat_le.1 hc.2) (by decide)
      · next hc => exact Nat.lt_of_le_of_lt (UInt32.le_iff_toNat_le.1 hc.2) (by decide)
      · cases h
    have hc := htable c.toNat hlt value
    rw [Char.ofNat_toNat] at hc
    exact hc h
  · intro h
    have hlower : ∀ value < 16, lowerDigits[value]?.bind digitValue = some value := by decide
    have hupper : ∀ value < 16, upperDigits[value]?.bind digitValue = some value := by decide
    rcases h with h | h
    · have hvalue := hlower value (List.getElem?_eq_some_iff.1 h).1
      rwa [h] at hvalue
    · have hvalue := hupper value (List.getElem?_eq_some_iff.1 h).1
      rwa [h] at hvalue

theorem hexValue_append (digits : List Char) (c : Char) :
    hexValue (digits ++ [c]) =
      (hexValue digits).bind fun n => (digitValue c).map (16 * n + ·) := by
  rw [hexValue, List.foldl_append]
  rfl

theorem hexValue_eq_some {digits : List Char} :
    ∀ {n : Nat}, hexValue digits = some n ↔ Hexadecimal digits n := by
  intro n
  constructor
  · intro h
    induction digits using List.reverseRecOn generalizing n with
    | nil =>
        cases h
        exact .nil
    | append_singleton digits c ih =>
        rw [hexValue_append] at h
        obtain ⟨front, hfront, h⟩ := Option.bind_eq_some_iff.1 h
        obtain ⟨value, hvalue, rfl⟩ := Option.map_eq_some_iff.1 h
        exact .snoc (ih hfront) (digitValue_eq_some.1 hvalue)
  · intro h
    induction h with
    | nil => rfl
    | snoc front last ih =>
        rw [hexValue_append, ih, Option.bind_some, digitValue_eq_some.2 last]
        rfl

theorem character_eq_some {n : Nat} {c : Char} : character n = some c ↔ n = c.toNat := by
  constructor
  · intro h
    unfold character at h
    by_cases hvalid : n.isValidChar
    · rw [dif_pos hvalid] at h
      cases h
      rfl
    · rw [dif_neg hvalid] at h
      cases h
  · rintro rfl
    have hvalid : c.toNat.isValidChar := c.valid
    unfold character
    rw [dif_pos hvalid]
    rfl

/-! ### Reading an escape -/

theorem namedEscape_eq_some {letter c : Char} :
    namedEscape letter = some c ↔ (letter, c) ∈ letterEscapes := by
  constructor
  · intro h
    unfold namedEscape at h
    split at h
    all_goals cases h
    all_goals decide
  · have htable : ∀ p ∈ letterEscapes, namedEscape p.1 = some p.2 := by decide
    exact htable (letter, c)

theorem escapeDigits_eq_some {letter : Char} {width : Nat} :
    escapeDigits letter = some width ↔ (letter, width) ∈ numberEscapes := by
  constructor
  · intro h
    unfold escapeDigits at h
    split at h
    all_goals cases h
    all_goals decide
  · have htable : ∀ p ∈ numberEscapes, escapeDigits p.1 = some p.2 := by decide
    exact htable (letter, width)

/-- No letter is both. -/
theorem namedEscape_eq_none {letter : Char} {width : Nat} (h : (letter, width) ∈ numberEscapes) :
    namedEscape letter = none := by
  have htable : ∀ p ∈ numberEscapes, namedEscape p.1 = none := by decide
  exact htable _ h

theorem Escape.escape_eq {c : Char} {text : List Char} (h : Escape c text) (rest : List Char) :
    escape (text ++ rest) = .ok (c, text.length) := by
  cases h with
  | letter h =>
      rw [List.singleton_append, escape, namedEscape_eq_some.2 h]
      rfl
  | @number letter width digits h hwidth hdigits =>
      have htake : (digits ++ rest).take width = digits := by
        rw [← hwidth, List.take_left]
      have hvalue : (hexValue digits).bind character = some c := by
        rw [hexValue_eq_some.2 hdigits, Option.bind_some, character_eq_some]
      rw [List.cons_append, escape, namedEscape_eq_none h, escapeDigits_eq_some.2 h]
      simp only [htake, if_pos hwidth]
      rw [hvalue, List.length_cons, hwidth]

theorem escape_sound {cs : List Char} {c : Char} {used : Nat} (h : escape cs = .ok (c, used)) :
    ∃ text rest, cs = text ++ rest ∧ text.length = used ∧ Escape c text := by
  cases cs with
  | nil => cases h
  | cons letter cs =>
      unfold escape at h
      simp only at h
      split at h
      · next hletter =>
        cases h
        exact ⟨[letter], cs, rfl, rfl, .letter (namedEscape_eq_some.1 hletter)⟩
      · cases h
      · next width _ hletter =>
        split at h
        · next hvalue =>
          cases h
          obtain ⟨n, hn, hc⟩ := Option.bind_eq_some_iff.1 hvalue
          obtain ⟨hwidth, hdigits⟩ := Option.ite_none_right_eq_some.1 hn
          obtain rfl := character_eq_some.1 hc
          refine ⟨letter :: cs.take width, cs.drop width, by simp, by simpa using hwidth, ?_⟩
          exact .number (escapeDigits_eq_some.1 hletter) hwidth (hexValue_eq_some.1 hdigits)
        · cases h

/-! ### Reading in double quotes -/

/-- What an escape takes up is passed over. -/
theorem readDouble_skip (skipped done rest : List Char) :
    readDouble skipped.length done (skipped ++ rest) = readDouble 0 done rest := by
  induction skipped with
  | nil => rfl
  | cons c skipped ih => exact ih

theorem DoubleItem.readDouble_eq {c : Char} {item : List Char} (h : DoubleItem c item)
    (done rest : List Char) :
    readDouble 0 done (item ++ rest) = readDouble 0 (c :: done) rest := by
  cases h with
  | plain hquote hbackslash =>
      rw [List.singleton_append, readDouble, if_neg hquote, if_neg hbackslash]
  | @escape text h =>
      rw [List.cons_append, readDouble, if_neg (by decide), if_pos rfl, h.escape_eq]
      exact readDouble_skip text (c :: done) rest

theorem readDouble_items {value rest : List Char} {items : List (List Char)}
    (h : List.Forall₂ DoubleItem value items) :
    ∀ done, readDouble 0 done (items.flatten ++ '"' :: rest) =
      .ok (done.reverse ++ value, rest) := by
  induction h with
  | nil =>
      intro done
      rw [List.flatten_nil, List.nil_append, readDouble, if_pos rfl, List.append_nil]
  | cons hitem _ ih =>
      intro done
      rw [List.flatten_cons, List.append_assoc, hitem.readDouble_eq, ih]
      simp

theorem readDouble_sound {value rest : List Char} {skip : Nat} {done text : List Char}
    (h : readDouble skip done text = .ok (value, rest)) :
    ∃ skipped behind tail, text = skipped ++ behind ∧ skipped.length = skip ∧
      value = done.reverse ++ tail ∧ Spelled DoubleItem '"' tail rest behind := by
  fun_induction readDouble skip done text with
  | case1 => cases h
  | case2 done c cs skip ih =>
      obtain ⟨skipped, behind, tail, rfl, rfl, hvalue, hbehind⟩ := ih h
      exact ⟨c :: skipped, behind, tail, rfl, rfl, hvalue, hbehind⟩
  | case3 =>
      cases h
      exact ⟨[], _, [], rfl, rfl, by simp, spelled_nil⟩
  | case4 => cases h
  | case5 done cs c used hescape _ ih =>
      obtain ⟨skipped, behind, tail, rfl, rfl, rfl, hbehind⟩ := ih h
      obtain ⟨item, rest', happend, hlength, hitem⟩ := escape_sound hescape
      obtain ⟨rfl, rfl⟩ := List.append_inj happend hlength.symm
      exact ⟨[], _, c :: tail, rfl, rfl, by simp, hbehind.cons (.escape hitem)⟩
  | case6 done c cs hquote hbackslash ih =>
      obtain ⟨skipped, behind, tail, rfl, hskipped, rfl, hbehind⟩ := ih h
      obtain rfl := List.eq_nil_of_length_eq_zero hskipped
      exact ⟨[], _, c :: tail, rfl, rfl, by simp, hbehind.cons (.plain hquote hbackslash)⟩

theorem readDouble_eq_ok {value rest text : List Char} :
    readDouble 0 [] text = .ok (value, rest) ↔ Spelled DoubleItem '"' value rest text := by
  constructor
  · intro h
    obtain ⟨skipped, behind, tail, rfl, hskipped, rfl, hbehind⟩ := readDouble_sound h
    obtain rfl := List.eq_nil_of_length_eq_zero hskipped
    exact hbehind
  · rintro ⟨items, hitems, rfl⟩
    exact readDouble_items hitems []

/-! ### Reading in single quotes -/

theorem readSingle_items {value rest : List Char} {items : List (List Char)}
    (h : List.Forall₂ SingleItem value items) (hrest : rest.head? ≠ some '\'') :
    ∀ done, readSingle done (items.flatten ++ '\'' :: rest) =
      .ok (done.reverse ++ value, rest) := by
  induction h with
  | nil =>
      intro done
      have hclosed : ∀ more, '\'' = '\'' → rest = '\'' :: more → False := by
        rintro more - rfl
        exact hrest rfl
      rw [List.flatten_nil, List.nil_append, readSingle, if_pos rfl, List.append_nil]
      exact hclosed
  | @cons c item value items hitem _ ih =>
      intro done
      rw [List.flatten_cons, List.append_assoc]
      cases hitem with
      | plain hquote =>
          rw [List.singleton_append, readSingle, if_neg hquote, ih]
          · simp
          · exact fun _ h _ => hquote h
      | doubled hquote =>
          rw [List.cons_append, List.singleton_append, readSingle, ih, hquote]
          simp

theorem readSingle_sound {value rest done text : List Char}
    (h : readSingle done text = .ok (value, rest)) :
    ∃ tail, value = done.reverse ++ tail ∧ Spelled SingleItem '\'' tail rest text ∧
      rest.head? ≠ some '\'' := by
  fun_induction readSingle done text with
  | case1 => cases h
  | case2 done cs ih =>
      obtain ⟨tail, rfl, htext, hrest⟩ := ih h
      exact ⟨'\'' :: tail, by simp, htext.cons (.doubled rfl), hrest⟩
  | case3 done cs hdouble =>
      cases h
      refine ⟨[], by simp, spelled_nil, ?_⟩
      intro hhead
      obtain ⟨more, rfl⟩ := List.head?_eq_some_iff.1 hhead
      exact hdouble more rfl rfl
  | case4 done c cs hdouble hquote ih =>
      obtain ⟨tail, rfl, htext, hrest⟩ := ih h
      exact ⟨c :: tail, by simp, htext.cons (.plain hquote), hrest⟩

theorem readSingle_eq_ok {value rest text : List Char} :
    readSingle [] text = .ok (value, rest) ↔
      Spelled SingleItem '\'' value rest text ∧ rest.head? ≠ some '\'' := by
  constructor
  · intro h
    obtain ⟨tail, rfl, htext, hrest⟩ := readSingle_sound h
    exact ⟨htext, hrest⟩
  · rintro ⟨⟨items, hitems, rfl⟩, hrest⟩
    exact readSingle_items hitems hrest []

/-! ### Quoted texts -/

/--
**Quoted texts are read by their grammar.**

Behind a double quote exactly the texts are read that are spelled with characters and escapes, up
to the closing quote, and they stand for the characters of their items.  Behind a single quote these
are the texts that are spelled with characters and doubled quotes, and no quote follows them.
-/
theorem read_eq_ok (text value rest : List Char) :
    (read ('"' :: text) = .ok (value, rest) ↔ Spelled DoubleItem '"' value rest text) ∧
    (read ('\'' :: text) = .ok (value, rest) ↔
      Spelled SingleItem '\'' value rest text ∧ rest.head? ≠ some '\'') :=
  ⟨readDouble_eq_ok, readSingle_eq_ok⟩

/-! ### Faults -/

theorem escape_eq_error {cs : List Char} {fault : Fault} (h : escape cs = .error fault) :
    fault ≠ .missingQuote := by
  unfold escape at h
  split at h
  · cases h
    nofun
  split at h
  · cases h
  · cases h
    nofun
  · simp only at h
    split at h
    · cases h
    · cases h
      nofun

theorem readDouble_eq_error {skip : Nat} {done cs : List Char} {fault : Fault}
    (h : readDouble skip done cs = .error fault) : fault ≠ .missingQuote := by
  fun_induction readDouble skip done cs with
  | case1 =>
      cases h
      nofun
  | case2 done c cs skip ih => exact ih h
  | case3 => cases h
  | case4 done cs e hescape =>
      cases h
      exact escape_eq_error hescape
  | case5 done cs d used hescape hquote ih => exact ih h
  | case6 done c cs hquote hbackslash ih => exact ih h

theorem readSingle_eq_error {done cs : List Char} {fault : Fault}
    (h : readSingle done cs = .error fault) : fault ≠ .missingQuote := by
  fun_induction readSingle done cs with
  | case1 =>
      cases h
      nofun
  | case2 done cs ih => exact ih h
  | case3 => cases h
  | case4 done c cs hpair hquote ih => exact ih h

/-- Where a text starts with a quote, none is missed. -/
theorem read_eq_error {text : List Char} {fault : Fault} (hopens : opens text = true)
    (h : read text = .error fault) : fault ≠ .missingQuote := by
  unfold read at h
  split at h
  · exact readDouble_eq_error h
  · exact readSingle_eq_error h
  · next hdouble hsingle =>
    cases text with
    | nil => cases hopens
    | cons c cs =>
        simp only [opens, Bool.or_eq_true, decide_eq_true_eq] at hopens
        rcases hopens with rfl | rfl
        · exact absurd rfl (hdouble cs)
        · exact absurd rfl (hsingle cs)

end YamlDecode.Text.Quoted
