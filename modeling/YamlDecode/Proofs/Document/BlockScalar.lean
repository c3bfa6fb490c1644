/-
Lines of block scalars.

The loop over the lines of a block scalar finds out on its way what indents the text, but the lines
settle that before it starts: either the header says it, or the first line with content does.  With
that level known (`textLevel`) a line is taken on its own account, so the lines of a block scalar
are those up to the first with content that is indented less (`takeBlock_eq`), and what is taken of
each is said without a look at the others.

What is made of them depends on where the lines with content end.  `|` leaves all line breaks up to
there as they are.  For the breaks behind them, `-` takes all off and no mark leaves one, and `+` is
to leave each.  It leaves one break too many if no line has content: it adds a break for the body
to those of the blank lines, also if there is no body.
-/
import Mathlib.Data.List.DropRight
import Mathlib.Data.List.Forall2
import YamlDecode.Document
import YamlDecode.Proofs.Document.Line

namespace YamlDecode.Document

open YamlDecode.Text

namespace Line

/-- Does a line belong to a text that is indented by `n`? -/
def within (n : Nat) (l : Line) : Bool := allBlank l.text || decide (n ≤ l.indent)

/-- What a line says in a text that is indented by `n`. -/
def said (n : Nat) (l : Line) : List Char :=
  if allBlank l.text then [] else l.rest.drop (n - l.offset)

variable {n : Nat} {l : Line}

theorem within_of_blank (h : allBlank l.text = true) : l.within n = true := by
  rw [within, h, Bool.true_or]

theorem within_of_content (h : allBlank l.text = false) : l.within n = decide (n ≤ l.indent) := by
  rw [within, h, Bool.false_or]

theorem said_of_blank (h : allBlank l.text = true) : l.said n = [] := if_pos h

theorem said_of_content (h : allBlank l.text = false) :
    l.said n = l.rest.drop (n - l.offset) :=
  if_neg (Bool.eq_false_iff.1 h)

/-- A line with content says something in every text that it belongs to. -/
theorem said_eq_nil_iff (h : l.within n = true) : l.said n = [] ↔ allBlank l.text = true := by
  refine ⟨fun hsaid => ?_, said_of_blank⟩
  by_contra hblank
  have hcontent : allBlank l.text = false := Bool.eq_false_iff.2 hblank
  rw [said_of_content hcontent, List.drop_eq_nil_iff] at hsaid
  rw [within_of_content hcontent, decide_eq_true_eq, indent] at h
  have hsplit := congrArg List.length (List.takeWhile_append_dropWhile (p := (· == ' ')) (l := l.rest))
  have hnonempty : 0 < l.text.length := by
    rw [List.length_pos_iff]
    intro hnil
    rw [hnil] at hblank
    exact hblank rfl
  rw [List.length_append] at hsplit
  rw [text] at hnonempty
  omega

end Line

/-! ### The lines of a text -/

/-- What indents a text in something indented by `parent`, where `indent` is given for it or not.
If the first line with content is not indented deeper than `parent`, it ends the text, and so it
does if the text is taken to be indented by one more. -/
def textLevel (parent : Nat) (indent : Option Nat) (ls : List Line) : Nat :=
  indent.getD (max (parent + 1) ((ls.find? (!allBlank ·.text)).elim 0 Line.indent))

section Level

variable {parent : Nat} {indent : Option Nat} {l : Line} {ls : List Line}

@[simp] theorem textLevel_some (n : Nat) : textLevel parent (some n) ls = n := rfl

theorem textLevel_blank (h : allBlank l.text = true) :
    textLevel parent indent (l :: ls) = textLevel parent indent ls := by
  simp [textLevel, h]

theorem textLevel_content (h : allBlank l.text = false) :
    textLevel parent none (l :: ls) = max (parent + 1) l.indent := by
  simp [textLevel, h]

/-- A line of the text is taken, and the lines below are taken at the same level. -/
theorem takeBlock_within (h : l.within (textLevel parent indent (l :: ls)) = true)
    (done : List (List Char)) :
    ∃ indent', textLevel parent indent' ls = textLevel parent indent (l :: ls) ∧
      takeBlock parent indent done (l :: ls) =
        takeBlock parent indent' (l.said (textLevel parent indent (l :: ls)) :: done) ls := by
  by_cases hblank : allBlank l.text = true
  · refine ⟨indent, (textLevel_blank hblank).symm, ?_⟩
    rw [Line.said_of_blank hblank]
    exact if_pos hblank
  have hcontent : allBlank l.text = false := Bool.eq_false_iff.2 hblank
  rw [Line.within_of_content hcontent, decide_eq_true_eq] at h
  rw [Line.said_of_content hcontent]
  cases indent with
  | none =>
      rw [textLevel_content hcontent] at h ⊢
      have hlevel : max (parent + 1) l.indent = l.indent := by omega
      have hdeeper : ¬l.indent ≤ parent := by omega
      refine ⟨some l.indent, hlevel.symm, ?_⟩
      rw [hlevel]
      exact (if_neg hblank).trans (if_neg hdeeper)
  | some n =>
      rw [textLevel_some] at h ⊢
      exact ⟨some n, rfl, (if_neg hblank).trans (if_neg (Nat.not_lt.2 h))⟩

/-- Any other line ends the text. -/
theorem takeBlock_beyond (h : l.within (textLevel parent indent (l :: ls)) = false)
    (done : List (List Char)) : takeBlock parent indent done (l :: ls) = (done, l :: ls) := by
  have hcontent : allBlank l.text = false := by
    rw [← Bool.not_eq_true]
    intro hblank
    rw [Line.within_of_blank hblank] at h
    cases h
  rw [Line.within_of_content hcontent, decide_eq_false_iff_not] at h
  refine (if_neg (Bool.eq_false_iff.1 hcontent)).trans ?_
  cases indent with
  | none =>
      rw [textLevel_content hcontent] at h
      have hends : l.indent ≤ parent := by omega
      exact if_pos hends
  | some n =>
      rw [textLevel_some] at h
      exact if_pos (Nat.not_le.1 h)

end Level

/-- A text takes the lines up to the first with content that is indented less. -/
theorem takeBlock_eq (parent : Nat) (ls : List Line) :
    ∀ (indent : Option Nat) (done : List (List Char)),
      takeBlock parent indent done ls =
        (((ls.takeWhile (·.within (textLevel parent indent ls))).map
            (·.said (textLevel parent indent ls))).reverse ++ done,
          ls.dropWhile (·.within (textLevel parent indent ls))) := by
  induction ls with
  | nil => intro indent done; rfl
  | cons l ls ih =>
      intro indent done
      cases hwithin : l.within (textLevel parent indent (l :: ls)) with
      | true =>
          obtain ⟨indent', hlevel, htake⟩ := takeBlock_within hwithin done
          rw [htake, ih, hlevel, List.takeWhile_cons_of_pos hwithin,
            List.dropWhile_cons_of_pos hwithin, List.map_cons, List.reverse_cons, List.append_assoc]
          rfl
      | false =>
          have hbeyond : ¬l.within (textLevel parent indent (l :: ls)) = true := by simp [hwithin]
          rw [takeBlock_beyond hwithin, List.takeWhile_cons_of_neg hbeyond,
            List.dropWhile_cons_of_neg hbeyond]
          rfl

/-! ### The text of a block scalar -/

namespace Header

variable (h : Header) (parent : Nat) (ls : List Line)

/-- What indents the text of a block scalar. -/
def level : Nat := textLevel parent (h.indent.map (parent + ·)) ls

/-- The lines that belong to a block scalar. -/
def taken : List Line := ls.takeWhile (·.within (h.level parent ls))

/-- What they say, line by line. -/
def texts : List (List Char) := (h.taken parent ls).map (·.said (h.level parent ls))

theorem readBlock_eq :
    h.readBlock parent ls =
      (h.assemble (h.texts parent ls).reverse, ls.dropWhile (·.within (h.level parent ls))) := by
  rw [readBlock, takeBlock_eq, List.append_nil]
  rfl

/-- The lines of a block scalar stand in front of those that are left. -/
theorem taken_append_rest : h.taken parent ls ++ (h.readBlock parent ls).2 = ls := by
  rw [readBlock_eq]
  exact List.takeWhile_append_dropWhile

end Header

/-! ### Breaks behind lines -/

/-- Breaks between lines, and one behind the last. -/
theorem joinLines_concat {texts : List (List Char)} (h : texts ≠ []) :
    joinLines texts ++ ['\n'] = texts.flatMap (· ++ ['\n']) := by
  induction texts with
  | nil => exact absurd rfl h
  | cons t texts ih =>
      cases texts with
      | nil => simp [joinLines]
      | cons u texts =>
          have hjoin : joinLines (t :: u :: texts) = t ++ ['\n'] ++ joinLines (u :: texts) := by
            rw [joinLines, List.intercalate_cons_cons]
            rfl
          rw [hjoin, List.append_assoc, ih (List.cons_ne_nil u texts), List.flatMap_cons (x := t)]

theorem count_flatMap_break {texts : List (List Char)} (h : ∀ t ∈ texts, '\n' ∉ t) :
    (texts.flatMap (· ++ ['\n'])).count '\n' = texts.length := by
  induction texts with
  | nil => rfl
  | cons t texts ih =>
      have hfirst : t.count '\n' = 0 := List.count_eq_zero.2 (h t List.mem_cons_self)
      have hrest := ih fun u hu => h u (List.mem_cons_of_mem t hu)
      rw [List.flatMap_cons, List.count_append, List.count_append, hfirst, hrest, List.length_cons,
        List.count_singleton_self]
      omega

/-! ### Breaks that are kept -/

/-- The empty texts at the end, by their number. -/
theorem rtakeWhile_isEmpty (texts : List (List Char)) :
    texts.rtakeWhile List.isEmpty =
      List.replicate (texts.reverse.takeWhile List.isEmpty).length [] := by
  refine List.eq_replicate_iff.2 ⟨?_, ?_⟩
  · rw [List.rtakeWhile, List.length_reverse]
  · intro t ht
    exact List.isEmpty_iff.1 (List.mem_rtakeWhile_imp ht)

/-- What lines say in a text that is indented by `n`, each with a break behind it. -/
def endedLines (n : Nat) (ls : List Line) : List Char := ls.flatMap fun l => l.said n ++ ['\n']

section Keep

variable {h : Header} (hliteral : h.folded = false) (hkeep : h.chomping = .keep)
include hliteral hkeep

/-- With all breaks kept each line is followed by one, and if no line says anything there is one
more. -/
theorem assemble_keep (texts : List (List Char)) :
    h.assemble texts.reverse =
      texts.flatMap (· ++ ['\n']) ++ if texts.all List.isEmpty then ['\n'] else [] := by
  have hassemble : h.assemble texts.reverse =
      joinLines (texts.rdropWhile List.isEmpty) ++
        List.replicate ((texts.reverse.takeWhile List.isEmpty).length + 1) '\n' := by
    rw [Header.assemble, hliteral, hkeep]
    rfl
  have hsplit : texts.rdropWhile List.isEmpty ++ texts.rtakeWhile List.isEmpty = texts :=
    List.rdropWhile_append_rtakeWhile ..
  have hbreaks : ∀ n, (List.replicate n []).flatMap (· ++ ['\n']) = List.replicate n '\n' := by
    intro n
    rw [List.flatMap_replicate, List.nil_append, List.flatten_replicate_singleton]
  have hempty : texts.all List.isEmpty = true ↔ texts.rdropWhile List.isEmpty = [] := by
    rw [List.all_eq_true, List.rdropWhile_eq_nil_iff]
  rw [rtakeWhile_isEmpty] at hsplit
  rw [hassemble]
  generalize (texts.reverse.takeWhile List.isEmpty).length = trailing at hsplit ⊢
  generalize texts.rdropWhile List.isEmpty = body at hsplit hempty ⊢
  by_cases hbody : body = []
  · rw [if_pos (hempty.2 hbody), ← hsplit, hbody, List.nil_append, hbreaks, List.replicate_succ']
    rfl
  · rw [if_neg (fun hall => hbody (hempty.1 hall)), List.append_nil, ← hsplit, List.flatMap_append,
      hbreaks, ← joinLines_concat hbody, List.append_assoc]
    rfl

/--
**Kept breaks are those of the lines, or one more.**

In a text with `|` and `+` each line that is taken is followed by one break: a blank line says
nothing, and any other what stands behind the indentation of the text.  If no line with content is
taken, there is one more break, which belongs to no line.
-/
theorem readBlock_keep (parent : Nat) (ls : List Line) :
    h.taken parent ls ++ (h.readBlock parent ls).2 = ls ∧
      (h.readBlock parent ls).1 = endedLines (h.level parent ls) (h.taken parent ls) ++
        (if (h.taken parent ls).all (allBlank ·.text) then ['\n'] else []) ∧
      ((∀ l ∈ ls, '\n' ∉ l.rest) →
        (endedLines (h.level parent ls) (h.taken parent ls)).count '\n' =
          (h.taken parent ls).length) := by
  have hended : (h.texts parent ls).flatMap (· ++ ['\n']) =
      endedLines (h.level parent ls) (h.taken parent ls) := List.flatMap_map ..
  refine ⟨h.taken_append_rest parent ls, ?_, ?_⟩
  · have hblank : (h.texts parent ls).all List.isEmpty =
        (h.taken parent ls).all (allBlank ·.text) := by
      rw [Bool.eq_iff_iff, List.all_eq_true, List.all_eq_true, Header.texts, List.forall_mem_map]
      refine forall₂_congr fun l hl => ?_
      rw [List.isEmpty_iff, Line.said_eq_nil_iff (List.mem_takeWhile_imp hl)]
    rw [Header.readBlock_eq, ← hended, ← hblank]
    exact assemble_keep hliteral hkeep (h.texts parent ls)
  · intro hlines
    have htexts : ∀ t ∈ h.texts parent ls, '\n' ∉ t := by
      intro t ht
      obtain ⟨l, hl, rfl⟩ := List.mem_map.1 ht
      have hnewline := hlines l (List.takeWhile_subset _ hl)
      unfold Line.said
      split
      · exact List.not_mem_nil
      · exact fun hmem => hnewline (List.mem_of_mem_drop hmem)
    have hcount := count_flatMap_break htexts
    rw [hended, Header.texts, List.length_map] at hcount
    exact hcount

end Keep

/-- Blank lines around one with content, and a blank that is no space. -/
theorem readBlock_keep_mixed :
    let h : Header := ⟨false, .keep, none⟩
    let ls : List Line := [⟨2, 0, []⟩, ⟨3, 0, "   a".toList⟩, ⟨4, 0, " \t".toList⟩, ⟨5, 0, "b".toList⟩]
    h.readBlock 0 ls = ("\na\n\n".toList, [⟨5, 0, "b".toList⟩]) ∧
      (h.readBlock 0 ls).1.count '\n' = (h.taken 0 ls).length := by
  intro h ls
  obtain ⟨hlines, hvalue, hcount⟩ := @readBlock_keep h rfl rfl 0 ls
  have hended : (h.readBlock 0 ls).1 = endedLines (h.level 0 ls) (h.taken 0 ls) :=
    hvalue.trans (List.append_nil _)
  refine ⟨Prod.ext (hended.trans (by decide)) ?_, ?_⟩
  · exact List.append_cancel_left hlines
  · rw [hended]
    exact hcount (by decide)

/-- A break that is kept though there are no lines. -/
theorem keep_noLines :
    let h : Header := ⟨false, .keep, none⟩
    h.taken 0 [] = [] ∧ h.readBlock 0 [] = (['\n'], []) ∧
      (h.readBlock 0 []).1 ≠ endedLines (h.level 0 []) (h.taken 0 []) ∧
      parse "a: |+\n" = .ok (.ofRose (.node ⟨.map, "", 1, 1⟩
        [.leaf ⟨.str, "a", 1, 1⟩, .leaf ⟨.str, "\n", 1, 4⟩])) := by
  have hread : Document.read "a: |+\n".toList = .ok (.node ⟨.map, "", 1, 1⟩
      [.leaf ⟨.str, "a", 1, 1⟩, .leaf ⟨.str, "\n", 1, 4⟩]) := rfl
  exact ⟨rfl, rfl, by decide, congrArg (Except.map Tree.ofRose) hread⟩

/-! ### Lines that are indented alike -/

/-- A line of a text that is indented by `m`, and what it says: a line of spaces says nothing, and
any other has text behind `m` spaces. -/
inductive Line.Says (m : Nat) : Line → List Char → Prop
  | blank (number n : Nat) : Says m ⟨number, 0, List.replicate n ' '⟩ []
  | text (number : Nat) {t : List Char} (h : allBlank t = false) :
      Says m ⟨number, 0, List.replicate m ' ' ++ t⟩ t

theorem allBlank_dropSpaces (cs : List Char) :
    allBlank (cs.dropWhile (· == ' ')) = allBlank cs := by
  induction cs with
  | nil => rfl
  | cons c cs ih =>
      by_cases hspace : c = ' '
      · subst hspace
        exact ih
      · rw [List.dropWhile_cons_of_neg (by simpa using hspace)]

namespace Line.Says

variable {m n : Nat} {l : Line} {t : List Char}

theorem blank_iff (h : Line.Says m l t) : allBlank l.text = true ↔ t = [] := by
  cases h with
  | blank number n =>
      have hblank := dropWhile_spaces n []
      rw [List.append_nil] at hblank
      rw [Line.text, hblank]
      exact iff_of_true rfl rfl
  | text number h =>
      rw [Line.text, dropWhile_spaces, allBlank_dropSpaces, h]
      refine iff_of_false Bool.false_ne_true ?_
      rintro rfl
      cases h

/-- A line that says nothing belongs to every text, and any other to one that is indented like it. -/
theorem said_eq (h : Line.Says m l t) (hn : t = [] ∨ n = m) :
    l.within n = true ∧ l.said n = t := by
  by_cases hempty : t = []
  · have hblank := h.blank_iff.2 hempty
    exact ⟨Line.within_of_blank hblank, (Line.said_of_blank hblank).trans hempty.symm⟩
  have hcontent : allBlank l.text = false :=
    Bool.eq_false_iff.2 fun hblank => hempty (h.blank_iff.1 hblank)
  obtain rfl : n = m := hn.resolve_left hempty
  rw [Line.within_of_content hcontent, Line.said_of_content hcontent]
  cases h with
  | blank => exact absurd rfl hempty
  | text number h =>
      rw [Line.indent_spaces, Nat.sub_zero, List.drop_append_of_le_length (by simp),
        List.drop_replicate]
      simp

end Line.Says

section Literal

variable {parent m : Nat} {ls after : List Line} {texts : List (List Char)}

/-- The first line that says something tells what indents the text. -/
theorem textLevel_says (hdeeper : parent < m) (hls : List.Forall₂ (Line.Says m) ls texts)
    (hfirst : ∀ t ∈ texts.find? (!·.isEmpty), t.head? ≠ some ' ') :
    (∀ t ∈ texts, t = []) ∨ textLevel parent none (ls ++ after) = m := by
  induction hls with
  | nil => exact .inl nofun
  | @cons l t ls texts hl hls ih =>
      by_cases hempty : t = []
      · have hblank := hl.blank_iff.2 hempty
        subst hempty
        rw [List.cons_append, textLevel_blank hblank]
        refine (ih hfirst).imp_left fun hrest => ?_
        exact List.forall_mem_cons.2 ⟨rfl, hrest⟩
      · refine .inr ?_
        have hcontent : allBlank l.text = false :=
          Bool.eq_false_iff.2 fun hblank => hempty (hl.blank_iff.1 hblank)
        have hhead : t.head? ≠ some ' ' := hfirst t (List.find?_cons_of_pos (by simpa using hempty))
        rw [List.cons_append, textLevel_content hcontent]
        cases hl with
        | blank => exact absurd rfl hempty
        | text number h =>
            rw [Line.indent_spaces, takeWhile_space_eq_nil hhead, List.length_nil]
            omega

theorem said_of_says {n : Nat} (hls : List.Forall₂ (Line.Says m) ls texts)
    (hn : (∀ t ∈ texts, t = []) ∨ n = m) :
    (∀ l ∈ ls, l.within n = true) ∧ ls.map (·.said n) = texts := by
  induction hls with
  | nil => exact ⟨nofun, rfl⟩
  | @cons l t ls texts hl hls ih =>
      obtain ⟨hwithin, hsaid⟩ := hl.said_eq (hn.imp_left fun hempty => hempty t List.mem_cons_self)
      obtain ⟨hall, hmap⟩ :=
        ih (hn.imp_left fun hempty u hu => hempty u (List.mem_cons_of_mem t hu))
      exact ⟨List.forall_mem_cons.2 ⟨hwithin, hall⟩, by rw [List.map_cons, hsaid, hmap]⟩

section Assemble

variable {h : Header} (hliteral : h.folded = false) (hchomping : h.chomping ≠ .keep)
include hliteral hchomping

theorem assemble_literal (texts : List (List Char)) :
    h.assemble texts.reverse = joinLines (texts.rdropWhile List.isEmpty) ++
      if h.chomping = .clip ∧ texts.rdropWhile List.isEmpty ≠ [] then ['\n'] else [] := by
  have hreverse : (texts.reverse.dropWhile List.isEmpty).reverse = texts.rdropWhile List.isEmpty :=
    rfl
  unfold Header.assemble
  rw [hliteral, hreverse]
  cases hcase : h.chomping with
  | keep => exact absurd hcase hchomping
  | strip => simp
  | clip =>
      by_cases hbody : texts.rdropWhile List.isEmpty = []
      · simp [hbody]
      · simp [hbody]

/--
**A literal text keeps its lines.**

The lines of a text that is indented by `m` are blank or have text behind `m` spaces.  If the header
does not say `m`, the first of them with text does.  Up to the next line with content that is not
indented deeper than what stands around the text, all are taken, and the text is what they say with
breaks between them.  Blank lines at the end are dropped, and without a mark one break is left there.
-/
theorem readBlock_literal (hdeeper : parent < m) (hdigit : ∀ d, h.indent = some d → m = parent + d)
    (hls : List.Forall₂ (Line.Says m) ls texts)
    (hfirst : h.indent = none → ∀ t ∈ texts.find? (!·.isEmpty), t.head? ≠ some ' ')
    (hafter : ∀ l ∈ after.head?, allBlank l.text = false ∧ l.indent ≤ parent) :
    h.readBlock parent (ls ++ after) =
      (joinLines (texts.rdropWhile List.isEmpty) ++
        (if h.chomping = .clip ∧ texts.rdropWhile List.isEmpty ≠ [] then ['\n'] else []),
        after) := by
  have hlevel : parent < h.level parent (ls ++ after) ∧
      ((∀ t ∈ texts, t = []) ∨ h.level parent (ls ++ after) = m) := by
    unfold Header.level
    cases hcase : h.indent with
    | none =>
        refine ⟨?_, textLevel_says hdeeper hls (hfirst hcase)⟩
        exact Nat.lt_of_succ_le (Nat.le_max_left _ _)
    | some d =>
        have hm : textLevel parent ((some d).map (parent + ·)) (ls ++ after) = m :=
          (hdigit d hcase).symm
        exact ⟨hm ▸ hdeeper, .inr hm⟩
  obtain ⟨hwithin, hsaid⟩ := said_of_says hls hlevel.2
  have hends : ∀ l ∈ after.head?, ¬l.within (h.level parent (ls ++ after)) = true := by
    intro l hl
    obtain ⟨hcontent, hindent⟩ := hafter l hl
    rw [Line.within_of_content hcontent, decide_eq_true_eq]
    omega
  have htaken : h.taken parent (ls ++ after) = ls := by
    rw [Header.taken, List.takeWhile_append_of_pos hwithin]
    cases after with
    | nil => rw [List.takeWhile_nil, List.append_nil]
    | cons l after => rw [List.takeWhile_cons_of_neg (hends l rfl), List.append_nil]
  have hrest : (h.readBlock parent (ls ++ after)).2 = after := by
    have hsplit := h.taken_append_rest parent (ls ++ after)
    rw [htaken] at hsplit
    exact List.append_cancel_left hsplit
  have hvalue : (h.readBlock parent (ls ++ after)).1 = h.assemble texts.reverse := by
    rw [Header.readBlock_eq, Header.texts, htaken, hsaid]
  exact Prod.ext (hvalue.trans (assemble_literal hliteral hchomping texts)) hrest

end Assemble

end Literal

/-- The first line with text tells the indentation, behind a longer line of spaces, and a line that
is indented deeper keeps what it has more. -/
theorem readBlock_literal_detected :
    Header.readBlock ⟨false, .clip, none⟩ 1
        [⟨2, 0, "     ".toList⟩, ⟨3, 0, "   a".toList⟩, ⟨4, 0, "     b".toList⟩, ⟨5, 0, " ".toList⟩,
          ⟨6, 0, " c: 1".toList⟩] =
      ("\na\n  b\n".toList, [⟨6, 0, " c: 1".toList⟩]) := by
  have hls : List.Forall₂ (Line.Says 3)
      [⟨2, 0, "     ".toList⟩, ⟨3, 0, "   a".toList⟩, ⟨4, 0, "     b".toList⟩, ⟨5, 0, " ".toList⟩]
      [[], ['a'], "  b".toList, []] :=
    .cons (.blank 2 5) (.cons (.text 3 rfl) (.cons (.text 4 rfl) (.cons (.blank 5 1) .nil)))
  exact @readBlock_literal 1 3 _ [⟨6, 0, " c: 1".toList⟩] _ ⟨false, .clip, none⟩ rfl (by decide)
    (by decide) nofun hls (by decide) (by decide)

end YamlDecode.Document
