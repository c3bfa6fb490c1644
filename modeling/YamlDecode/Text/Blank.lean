/-
Blanks, and the width of a text.

A document is read as lists of characters, and three questions come up on every
line: which characters separate words, what is left of a text without the blanks
around it, and how many bytes a text takes in the source.  The last one matters
because columns count bytes: a column is one more than the width of what stands
before it on the line, so `width_append` is what makes columns add up.

Indentation is narrower than blankness.  Only the space U+0020 indents; every
other blank is part of the text that follows.
-/
namespace YamlDecode.Text

/-- The characters of the Unicode property White_Space. -/
def isBlank (c : Char) : Bool :=
  let n := c.toNat
  n == 0x20 || (0x09 ≤ n && n ≤ 0x0D) || n == 0x85 || n == 0xA0 || n == 0x1680
    || (0x2000 ≤ n && n ≤ 0x200A) || n == 0x2028 || n == 0x2029 || n == 0x202F
    || n == 0x205F || n == 0x3000

/-- The characters of the Unicode category Cc. -/
def isControl (c : Char) : Bool :=
  c.toNat < 0x20 || (0x7F ≤ c.toNat && c.toNat ≤ 0x9F)

/-- The text without the blanks it starts with. -/
def trimStart (cs : List Char) : List Char := cs.dropWhile isBlank

/-- The text without the blanks it ends with. -/
def trimEnd (cs : List Char) : List Char := (cs.reverse.dropWhile isBlank).reverse

/-- The text without the blanks on either side. -/
def trim (cs : List Char) : List Char := trimEnd (trimStart cs)

/-- Does the text hold blanks only? -/
def allBlank (cs : List Char) : Bool := cs.all isBlank

/-- The number of bytes the text takes in UTF-8. -/
def width (cs : List Char) : Nat := cs.foldl (fun n c => n + c.utf8Size) 0

/-- The number of bytes taken by the blanks a text starts with. -/
def blankWidth (cs : List Char) : Nat := width (cs.takeWhile isBlank)

/-! ### Width adds up -/

private theorem width_from (cs : List Char) :
    ∀ n, cs.foldl (fun n c => n + c.utf8Size) n = n + width cs := by
  induction cs with
  | nil => intro n; rfl
  | cons c cs ih =>
      intro n
      have h := ih (0 + c.utf8Size)
      simp only [width, List.foldl_cons] at *
      rw [ih, h]
      omega

@[simp] theorem width_nil : width [] = 0 := rfl

@[simp] theorem width_cons (c : Char) (cs : List Char) :
    width (c :: cs) = c.utf8Size + width cs := by
  simp only [width, List.foldl_cons, Nat.zero_add]
  exact width_from cs _

@[simp] theorem width_append (a b : List Char) : width (a ++ b) = width a + width b := by
  induction a with
  | nil => simp
  | cons c a ih => simp [ih, Nat.add_assoc]

/-! ### Trimming -/

theorem takeWhile_append_trimStart (cs : List Char) :
    cs.takeWhile isBlank ++ trimStart cs = cs :=
  List.takeWhile_append_dropWhile

/-- The blanks in front and what follows them share out the width of a text. -/
theorem blankWidth_add_width_trimStart (cs : List Char) :
    blankWidth cs + width (trimStart cs) = width cs := by
  rw [blankWidth, ← width_append, takeWhile_append_trimStart]

@[simp] theorem trimStart_nil : trimStart [] = [] := rfl

@[simp] theorem trimEnd_nil : trimEnd [] = [] := rfl

@[simp] theorem trim_nil : trim [] = [] := rfl

/-- Trimming the end leaves a front part of the text, and takes off blanks only. -/
theorem trimEnd_append (cs : List Char) :
    ∃ blanks, trimEnd cs ++ blanks = cs ∧ allBlank blanks = true := by
  refine ⟨(cs.reverse.takeWhile isBlank).reverse, ?_, ?_⟩
  · rw [trimEnd, ← List.reverse_append, List.takeWhile_append_dropWhile, List.reverse_reverse]
  · simp [allBlank, List.all_reverse]

end YamlDecode.Text
