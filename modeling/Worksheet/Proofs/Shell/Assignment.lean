import Worksheet.Proofs.Grid.Spelling
import Worksheet.Shell.Command

/-!
# Assignments

A formula is entered in two ways, by `CELL = FORMULA` and by `eval CELL FORMULA`. They are read in
different ways: an assignment is recognized by its form, the other command by its words. They come
to the same as long as the formula stands on one line. Blanks at its end do not count, line feeds
among them; but an assignment with a line feed before these is not recognized, and then its first
word is taken for the name of a command.

Results:
* `takeAddress?_chars`: an address is recognized in front of anything that does not go on with a
  digit.
* `parse_eval`: what `eval` enters.
* `parse_assignment`: an assignment is the same as `eval` if its formula has no line feed but at the
  end.
-/
namespace Worksheet.Command

variable {line : String} {c : Char} {cs cell formula rest : List Char}

/-! ## Lines -/

theorem parse_of_assignment (trimmed : Text.trimChars line.toList = cs) (first : cs.head? = some c)
    (word : c ≠ '#') (assigned : assignment? cs = some (cell, formula)) :
    parse line =
      .ok (some (enter (String.ofList cell) (String.ofList (Text.trimChars formula)))) := by
  obtain ⟨cs, rfl⟩ := List.head?_eq_some_iff.mp first
  simp only [parse, trimmed, if_neg word, assigned]

theorem parse_of_word (trimmed : Text.trimChars line.toList = cs) (first : cs.head? = some c)
    (word : c ≠ '#') (none : assignment? cs = none) :
    parse line =
      let (name, rest) := (Text.cutAtBlank (String.ofList cs)).getD (String.ofList cs, "")
      (ofName name (Text.trim rest)).map some := by
  obtain ⟨cs, rfl⟩ := List.head?_eq_some_iff.mp first
  simp only [parse, trimmed, if_neg word, none]

theorem ofName_of_digit {name : String} (rest : String)
    (digit : ∃ c ∈ name.toList, c.isDigit = true) : ofName name rest = .error (.unknown name) := by
  rw [← List.any_eq_true] at digit
  unfold ofName
  split <;> first | rfl | exact absurd digit (by decide)

theorem parse_of_digit (trimmed : Text.trimChars line.toList = cs) (first : cs.head? = some c)
    (word : c ≠ '#') (none : assignment? cs = none)
    (digit : ∃ c ∈ cs.takeWhile fun c => !Text.isBlank c, c.isDigit = true) :
    parse line = .error (.unknown (String.ofList (cs.takeWhile fun c => !Text.isBlank c))) := by
  have name := Text.fst_cutAtBlank (String.ofList cs)
  rw [String.toList_ofList] at name
  rw [parse_of_word trimmed first word none]
  dsimp only
  rw [name, ofName_of_digit _ (by rwa [String.toList_ofList])]
  rfl

/-! ## Spellings in a line -/

theorem exists_head?_chars (w : Spelling) (rest : List Char) :
    ∃ c, (w.chars ++ rest).head? = some c ∧ c ≠ '#' ∧ Text.isBlank c = false := by
  obtain ⟨c, first, word⟩ : ∃ c, w.chars.head? = some c ∧ c ≠ '#' := by
    unfold Spelling.chars
    cases w.colFixed with
    | true => exact ⟨'$', rfl, by decide⟩
    | false =>
      refine ⟨w.letter, rfl, fun same => ?_⟩
      have alpha := w.isAlpha_letter
      rw [same] at alpha
      exact absurd alpha (by decide)
  refine ⟨c, ?_, word, Spelling.isBlank_eq_false (List.mem_of_mem_head? first)⟩
  rw [List.head?_append, first, Option.some_or]

theorem exists_isDigit_chars (w : Spelling) : ∃ c ∈ w.chars, c.isDigit = true := by
  obtain ⟨c, hc⟩ := List.exists_mem_of_ne_nil _ w.digits_ne_nil
  refine ⟨c, ?_, w.isDigit_of_mem c hc⟩
  rw [Spelling.chars]
  exact List.mem_append_right _ (List.mem_cons_of_mem _ (List.mem_append_right _ hc))

/-- An address is recognized in front of what does not go on with a digit. -/
theorem takeAddress?_chars (w : Spelling) (other : ∀ c ∈ rest.head?, c.isDigit = false) :
    takeAddress? (w.chars ++ rest) = some (w.chars, rest) := by
  have digits : (w.digits ++ rest).takeWhile Char.isDigit = w.digits ∧
      (w.digits ++ rest).dropWhile Char.isDigit = rest := by
    rw [List.takeWhile_append_of_pos w.isDigit_of_mem, List.dropWhile_append_of_pos w.isDigit_of_mem]
    cases rest with
    | nil => simp
    | cons c rest =>
      have digit := other c rfl
      simp [digit]
  simp only [takeAddress?, w.takeMarker_chars, w.takeMarker_digits, digits.1, digits.2,
    w.isAlpha_letter, w.digits_ne_nil, ne_eq, not_false_eq_true, and_self, if_true]
  rfl

/-! ## The two ways to enter a formula -/

theorem isDigit_of_isBlank (h : Text.isBlank c = true) : c.isDigit = false :=
  Bool.eq_false_iff.mpr fun digit => by
    rw [Text.isBlank_of_isAlphanum (by rw [Char.isAlphanum, digit, Bool.or_true])] at h
    cases h

/-- A spelling, some blanks and `=` are an assignment of what stands after them on the line. -/
theorem assignment?_chars (w : Spelling) {blanks : List Char} (formula : List Char)
    (blank : ∀ c ∈ blanks, Text.isBlank c = true) :
    assignment? (w.chars ++ (blanks ++ ['=']) ++ formula) =
      if '\n' ∈ formula then none else some (w.chars, formula) := by
  have other : ∀ c ∈ (blanks ++ '=' :: formula).head?, c.isDigit = false := by
    cases blanks with
    | nil => rintro c ⟨rfl⟩; rfl
    | cons b blanks => rintro c ⟨rfl⟩; exact isDigit_of_isBlank (blank b List.mem_cons_self)
  have marked : Text.trimLeft ('=' :: formula) = '=' :: formula := Text.trimLeft_of_solid (by decide)
  rw [List.append_assoc, List.append_assoc, List.singleton_append, assignment?,
    takeAddress?_chars w other]
  simp only [Text.trimLeft_append_of_blank blank, marked, true_and, ite_not]

/-- What a line comes to that is an assignment without the blanks around it. -/
theorem parse_chars (w : Spelling) {blanks : List Char}
    (blank : ∀ c ∈ blanks, Text.isBlank c = true)
    (trimmed : Text.trimChars line.toList = w.chars ++ (blanks ++ ['=']) ++ formula) :
    parse line =
      if '\n' ∈ formula then .error (.unknown (String.ofList
        ((w.chars ++ (blanks ++ ['=']) ++ formula).takeWhile fun c => !Text.isBlank c)))
      else .ok (some (enter (String.ofList w.chars) (String.ofList (Text.trimChars formula)))) := by
  obtain ⟨c, first, word, -⟩ := exists_head?_chars w (blanks ++ ['='] ++ formula)
  rw [← List.append_assoc] at first
  have form := assignment?_chars w formula blank
  split
  · next broken =>
    rw [if_pos broken] at form
    refine parse_of_digit trimmed first word form ?_
    obtain ⟨d, hd, digit⟩ := exists_isDigit_chars w
    refine ⟨d, ?_, digit⟩
    rw [List.append_assoc, List.takeWhile_append_of_pos
      fun c hc => by rw [Spelling.isBlank_eq_false hc]; rfl]
    exact List.mem_append_left _ hd
  · next whole =>
    rw [if_neg whole] at form
    exact parse_of_assignment trimmed first word form

theorem ofName_eval (w : Spelling) (solid : ∃ c ∈ formula, Text.isBlank c = false) :
    ofName "eval" (Text.trim (String.ofList (w.chars ++ [' '] ++ formula))) =
      .ok (enter (String.ofList w.chars) (String.ofList (Text.trimChars formula))) := by
  have cut : Text.cutAtBlank (Text.trim (String.ofList (w.chars ++ [' '] ++ formula))) =
      some (String.ofList w.chars, String.ofList (formula.rdropWhile Text.isBlank)) := by
    obtain ⟨c, first, -, start⟩ := exists_head?_chars w [' ']
    have trimmed := Text.trimChars_append first start (Text.rdropWhile_ne_nil_iff.mpr solid)
    rw [Text.trim, String.toList_ofList, trimmed, Text.cutAtBlank, String.toList_ofList,
      List.append_assoc, List.singleton_append,
      Text.cutChars_append (fun _ => Spelling.isBlank_eq_false) (by decide)]
    rfl
  simp only [ofName, cut]
  rw [Text.trim, String.toList_ofList, Text.trimChars_rdropWhile solid]

theorem parse_eval (w : Spelling) (formula : String)
    (solid : ∃ c ∈ formula.toList, Text.isBlank c = false) :
    parse ("eval " ++ String.ofList w.chars ++ " " ++ formula) =
      .ok (some (enter (String.ofList w.chars) (Text.trim formula))) := by
  have more := Text.rdropWhile_ne_nil_iff.mpr solid
  have trimmed : Text.trimChars ("eval " ++ String.ofList w.chars ++ " " ++ formula).toList =
      "eval".toList ++ ' ' :: (w.chars ++ [' '] ++ formula.toList.rdropWhile Text.isBlank) := by
    simp only [String.toList_append, String.toList_ofList]
    rw [Text.trimChars_append rfl (by decide) more]
    simp
  have cut : Text.cutAtBlank (String.ofList ("eval".toList ++
      ' ' :: (w.chars ++ [' '] ++ formula.toList.rdropWhile Text.isBlank))) =
      some ("eval", String.ofList (w.chars ++ [' '] ++ formula.toList.rdropWhile Text.isBlank)) := by
    have word : "eval".toList.all fun c => !Text.isBlank c := by decide
    rw [Text.cutAtBlank, String.toList_ofList,
      Text.cutChars_append (by simpa using List.all_eq_true.mp word) (by decide)]
    rfl
  have still : ∃ c ∈ formula.toList.rdropWhile Text.isBlank, Text.isBlank c = false :=
    Text.rdropWhile_ne_nil_iff.mp (by rwa [List.rdropWhile_idempotent])
  rw [parse_of_word trimmed rfl (by decide) rfl, cut]
  dsimp only [Option.getD_some]
  rw [ofName_eval w still, Text.trimChars_rdropWhile solid]
  rfl

/-- **Assignments.** A spelling, blanks, `=` and a formula that is not all blanks enter what `eval`
enters for the spelling and the formula, unless the formula has a line feed before the blanks at its
end. Then the line is no assignment, and what stands before its first blank is no command. -/
theorem parse_assignment (w : Spelling) (blanks formula : String)
    (blank : ∀ c ∈ blanks.toList, Text.isBlank c = true)
    (solid : ∃ c ∈ formula.toList, Text.isBlank c = false) :
    let cell := String.ofList w.chars
    let line := cell ++ blanks ++ "=" ++ formula
    parse ("eval " ++ cell ++ " " ++ formula) = .ok (some (enter cell (Text.trim formula))) ∧
      parse line = if '\n' ∈ formula.toList.rdropWhile Text.isBlank then
          .error (.unknown (String.ofList (line.toList.takeWhile fun c => !Text.isBlank c)))
        else parse ("eval " ++ cell ++ " " ++ formula) := by
  intro cell line
  have entered := parse_eval w formula solid
  have more := Text.rdropWhile_ne_nil_iff.mpr solid
  have text : line.toList = w.chars ++ (blanks.toList ++ ['=']) ++ formula.toList := by
    simp [line, cell]
  have trimmed : Text.trimChars line.toList =
      w.chars ++ (blanks.toList ++ ['=']) ++ formula.toList.rdropWhile Text.isBlank := by
    obtain ⟨c, first, -, start⟩ := exists_head?_chars w (blanks.toList ++ ['='])
    rw [text, Text.trimChars_append first start more]
  -- The blanks at the end belong to no word, and the trimmed line has the first word of the whole.
  have firstWord := Text.takeWhile_rdropWhile line.toList
  rw [text, Text.rdropWhile_append _ more, ← text] at firstWord
  refine ⟨entered, ?_⟩
  rw [entered, parse_chars w blank trimmed, firstWord, Text.trimChars_rdropWhile solid, Text.trim]

/-- Line feeds before the mark and at the end, and a formula that begins with another mark. -/
theorem parse_assignment_padded :
    parse "$b$7\n\t== 1 + 2 \n" = .ok (some (enter "$b$7" "= 1 + 2")) ∧
      parse "eval $b$7 = 1 + 2 \n" = .ok (some (enter "$b$7" "= 1 + 2")) := by
  let w : Spelling := ⟨true, 'b', true, ['7'], by decide, by decide,
    List.all_eq_true.mp (by decide)⟩
  obtain ⟨entered, assigned⟩ := parse_assignment w "\n\t" "= 1 + 2 \n"
    (List.all_eq_true.mp (by decide)) ⟨'=', by decide, by decide⟩
  rw [if_neg (by decide +kernel), entered] at assigned
  exact ⟨assigned, entered⟩

/-- A formula on two lines is entered by `eval`, but not by an assignment. -/
theorem parse_assignment_two_lines :
    parse "a1 = 1 +\n2" = .error (.unknown "a1") ∧
      parse "eval a1  1 +\n2" = .ok (some (enter "a1" "1 +\n2")) := by
  decide +kernel

end Worksheet.Command
