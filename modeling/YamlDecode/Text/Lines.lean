/-
The lines of a text.

A line feed ends a line, and a carriage return right before it goes with it.  A
carriage return anywhere else is an ordinary character, also at the very end of a
text that has no last line feed.  What follows the last line feed is a line of its
own unless it is empty, so a final line feed opens no further line.

`lines_append_newline` and `lines_of_no_newline` together are the whole rule.
-/
namespace YamlDecode.Text

/-- A line read backwards, without the carriage return that stood before its line feed. -/
private def withoutReturn : List Char → List Char
  | '\r' :: cs => cs
  | cs => cs

/-- The loop of `lines`: `line` is the line being read and `done` the lines before it,
both backwards. -/
private def linesFrom (line : List Char) (done : List (List Char)) : List Char → List (List Char)
  | [] => (if line.isEmpty then done else line.reverse :: done).reverse
  | c :: cs =>
    if c = '\n' then linesFrom [] ((withoutReturn line).reverse :: done) cs
    else linesFrom (c :: line) done cs

/-- The lines of a text, without their line feeds. -/
def lines (text : List Char) : List (List Char) := linesFrom [] [] text

/-- A line as it stood before a line feed: one carriage return at its end is dropped. -/
def dropReturn (line : List Char) : List Char := (withoutReturn line.reverse).reverse

/-- A line that ends with any other character is left as it is. -/
theorem dropReturn_concat {c : Char} (h : c ≠ '\r') (front : List Char) :
    dropReturn (front ++ [c]) = front ++ [c] := by
  rw [dropReturn, List.reverse_concat, withoutReturn, List.reverse_cons, List.reverse_reverse]
  rintro cs ⟨⟩
  exact h rfl

theorem dropReturn_return (front : List Char) : dropReturn (front ++ ['\r']) = front := by
  rw [dropReturn, List.reverse_concat, withoutReturn, List.reverse_reverse]

private theorem linesFrom_done (cs : List Char) :
    ∀ line done, linesFrom line done cs = done.reverse ++ linesFrom line [] cs := by
  induction cs with
  | nil => intro line done; cases line <;> simp [linesFrom]
  | cons c cs ih =>
      intro line done
      by_cases hc : c = '\n'
      · simp only [linesFrom, if_pos hc]
        rw [ih _ (_ :: done), ih _ [_]]
        simp
      · simp only [linesFrom, if_neg hc]
        exact ih _ _

private theorem linesFrom_append (l : List Char) (hl : '\n' ∉ l) :
    ∀ line cs, linesFrom line [] (l ++ cs) = linesFrom (l.reverse ++ line) [] cs := by
  induction l with
  | nil => intro line cs; rfl
  | cons c l ih =>
      intro line cs
      have hc : c ≠ '\n' := fun h => hl (by simp [h])
      simp only [List.cons_append, linesFrom, if_neg hc]
      rw [ih (fun h => hl (by simp [h]))]
      simp

@[simp] theorem lines_nil : lines [] = [] := rfl

/-- Up to its first line feed a text is one line, and the rest is read afresh. -/
theorem lines_append_newline (l rest : List Char) (hl : '\n' ∉ l) :
    lines (l ++ '\n' :: rest) = dropReturn l :: lines rest := by
  rw [lines, linesFrom_append l hl]
  simp only [linesFrom, List.append_nil, if_true]
  rw [linesFrom_done]
  rfl

/-- A text without a line feed is one line, carriage returns and all. -/
theorem lines_of_no_newline (l : List Char) (hl : '\n' ∉ l) (hne : l ≠ []) : lines l = [l] := by
  have h := linesFrom_append l hl [] []
  simp only [List.append_nil] at h
  rw [lines, h]
  simp [linesFrom, hne]

end YamlDecode.Text
