import Mathlib.Data.List.DropRight
import Worksheet.Text.Blank

/-!
# Texts without blanks

The characters of names, numerals and marks are no blanks, and a text without blanks stays as it is
when it is trimmed or stripped. A text is trimmed at its two ends, first at the left one; what
stands on one side of a solid character makes no difference to how the other side is trimmed.

Results:
* `isBlank_of_isAlphanum`: letters and digits are no blanks.
* `trimChars_eq_self`, `stripChars_eq_self`: nothing is taken from a text without blanks.
* `strip_strip`: a text is stripped once and for all.
* `trimChars_append`, `trimChars_rdropWhile`: trimming a text at its end.
* `cutChars_append`: a text is cut after the solid piece that it begins with.
* `exists_append_of_sublist`: blanks that are taken out of a text come from between solid pieces.
-/
namespace Worksheet.Text

variable {c : Char} {cs : List Char}

theorem isBlank_eq_false (least : 33 ≤ c.toNat) (most : c.toNat ≤ 132) : isBlank c = false := by
  simp only [isBlank, blankRanges, List.any_cons, List.any_nil, Bool.or_false,
    Bool.or_eq_false_iff, Bool.and_eq_false_iff, decide_eq_false_iff_not]
  omega

theorem isBlank_of_isAlphanum (h : c.isAlphanum = true) : isBlank c = false := by
  delta Char.isAlphanum Char.isAlpha Char.isUpper Char.isLower Char.isDigit at h
  simp only [Bool.or_eq_true, Bool.and_eq_true, decide_eq_true_eq, UInt32.le_iff_toNat_le,
    ge_iff_le] at h
  have value : c.toNat = c.val.toNat := rfl
  have upper : 'A'.val.toNat = 65 ∧ 'Z'.val.toNat = 90 := ⟨rfl, rfl⟩
  have lower : 'a'.val.toNat = 97 ∧ 'z'.val.toNat = 122 := ⟨rfl, rfl⟩
  have digit : '0'.val.toNat = 48 ∧ '9'.val.toNat = 57 := ⟨rfl, rfl⟩
  exact isBlank_eq_false (by omega) (by omega)

theorem trimLeft_eq_self (h : ∀ c ∈ cs, isBlank c = false) : trimLeft cs = cs := by
  cases cs with
  | nil => rfl
  | cons c cs =>
    have solid := h c List.mem_cons_self
    rw [trimLeft, List.dropWhile_cons, if_neg (by simp [solid])]

theorem trimChars_eq_self (h : ∀ c ∈ cs, isBlank c = false) : trimChars cs = cs := by
  have back : ∀ c ∈ cs.reverse, isBlank c = false := fun c hc => h c (List.mem_reverse.mp hc)
  rw [trimChars, trimLeft_eq_self h, trimLeft_eq_self back, List.reverse_reverse]

theorem stripChars_eq_self (h : ∀ c ∈ cs, isBlank c = false) : stripChars cs = cs :=
  List.filter_eq_self.mpr fun c hc => by rw [h c hc]; rfl

theorem strip_strip (s : String) : strip (strip s) = strip s := by
  have solid : ∀ c ∈ stripChars s.toList, isBlank c = false := by
    intro c hc
    simpa using (List.mem_filter.mp hc).2
  rw [strip, strip, String.toList_ofList, stripChars_eq_self solid]

/-! ## Trimming at one end -/

theorem trimChars_eq_rdropWhile (cs : List Char) :
    trimChars cs = (trimLeft cs).rdropWhile isBlank := rfl

theorem trimLeft_of_solid (h : isBlank c = false) : trimLeft (c :: cs) = c :: cs :=
  List.dropWhile_cons_of_neg (by simp [h])

theorem trimLeft_append_of_blank {bs : List Char} (h : ∀ c ∈ bs, isBlank c = true) :
    trimLeft (bs ++ cs) = trimLeft cs :=
  List.dropWhile_append_of_pos h

theorem rdropWhile_ne_nil_iff : cs.rdropWhile isBlank ≠ [] ↔ ∃ c ∈ cs, isBlank c = false := by
  simp [List.rdropWhile_eq_nil_iff]

/-- Only what stands after the last solid character is trimmed at the end. -/
theorem rdropWhile_append (cs : List Char) {ds : List Char} (h : ds.rdropWhile isBlank ≠ []) :
    (cs ++ ds).rdropWhile isBlank = cs ++ ds.rdropWhile isBlank := by
  have : ds.reverse.dropWhile isBlank ≠ [] := mt List.reverse_eq_nil_iff.mpr h
  rw [List.rdropWhile, List.reverse_append, List.dropWhile_append,
    if_neg (mt List.isEmpty_iff.mp this), List.reverse_append, List.reverse_reverse, List.rdropWhile]

theorem rdropWhile_of_solid (h : isBlank c = false) :
    (c :: cs).rdropWhile isBlank = c :: cs.rdropWhile isBlank := by
  by_cases none : cs.rdropWhile isBlank = []
  · have blank := List.rdropWhile_eq_nil_iff.mp none
    rw [none, List.rdropWhile, List.reverse_cons, List.dropWhile_append_of_pos (by simpa using blank),
      List.dropWhile_cons_of_neg (by simp [h])]
    rfl
  · exact rdropWhile_append [c] none

theorem exists_append_of_solid (h : ∃ c ∈ cs, isBlank c = false) :
    ∃ bs c ds, cs = bs ++ c :: ds ∧ (∀ b ∈ bs, isBlank b = true) ∧ isBlank c = false := by
  obtain ⟨d, hd, solid⟩ := h
  have some : (cs.find? fun c => !isBlank c).isSome :=
    List.find?_isSome.mpr ⟨d, hd, by rw [solid]; rfl⟩
  obtain ⟨c, found⟩ := Option.isSome_iff_exists.mp some
  obtain ⟨first, bs, ds, split, blank⟩ := List.find?_eq_some_iff_append.mp found
  exact ⟨bs, c, ds, split, by simpa using blank, by simpa using first⟩

/-- Of a text that begins and goes on with something solid, only the end is trimmed. -/
theorem trimChars_append {ds : List Char} (first : cs.head? = some c) (solid : isBlank c = false)
    (h : ds.rdropWhile isBlank ≠ []) : trimChars (cs ++ ds) = cs ++ ds.rdropWhile isBlank := by
  obtain ⟨cs, rfl⟩ := List.head?_eq_some_iff.mp first
  rw [trimChars_eq_rdropWhile, List.cons_append, trimLeft_of_solid solid, ← List.cons_append,
    rdropWhile_append _ h]

/-- A text may be trimmed at its end first. -/
theorem trimChars_rdropWhile (h : ∃ c ∈ cs, isBlank c = false) :
    trimChars (cs.rdropWhile isBlank) = trimChars cs := by
  obtain ⟨bs, c, ds, rfl, blank, solid⟩ := exists_append_of_solid h
  have some : (c :: ds).rdropWhile isBlank ≠ [] := by
    rw [rdropWhile_of_solid solid]
    exact List.cons_ne_nil _ _
  rw [rdropWhile_append _ some, trimChars_eq_rdropWhile, trimChars_eq_rdropWhile,
    trimLeft_append_of_blank blank, trimLeft_append_of_blank blank, trimLeft_of_solid solid,
    rdropWhile_of_solid solid, trimLeft_of_solid solid, rdropWhile_of_solid solid,
    List.rdropWhile_idempotent]

theorem takeWhile_rdropWhile (cs : List Char) :
    (cs.rdropWhile isBlank).takeWhile (fun c => !isBlank c) = cs.takeWhile fun c => !isBlank c := by
  induction cs with
  | nil => rfl
  | cons c cs ih =>
    cases solid : isBlank c with
    | false => simp only [rdropWhile_of_solid solid, List.takeWhile_cons, ih]
    | true =>
      rw [List.takeWhile_cons_of_neg (by simp [solid])]
      by_cases none : cs.rdropWhile isBlank = []
      · have blank := List.rdropWhile_eq_nil_iff.mp none
        rw [List.rdropWhile_eq_nil_iff.mpr (List.forall_mem_cons.mpr ⟨solid, blank⟩)]
        rfl
      · rw [← List.singleton_append, rdropWhile_append _ none, List.singleton_append,
          List.takeWhile_cons_of_neg (by simp [solid])]

/-- A text that begins with a solid piece and then has a blank is cut at this blank. -/
theorem cutChars_append {piece rest : List Char} (solid : ∀ c ∈ piece, isBlank c = false)
    (blank : isBlank c = true) : cutChars (piece ++ c :: rest) = some (piece, rest) := by
  have whole : ∀ c ∈ piece, (!isBlank c) = true := fun c hc => by rw [solid c hc]; rfl
  rw [cutChars, List.dropWhile_append_of_pos whole, List.takeWhile_append_of_pos whole,
    List.dropWhile_cons_of_neg (by simp [blank]), List.takeWhile_cons_of_neg (by simp [blank]),
    List.append_nil]

/-- What stands before the first blank of a text is its first word, also if there is no blank. -/
theorem fst_cutAtBlank (s : String) :
    ((cutAtBlank s).getD (s, "")).1 = String.ofList (s.toList.takeWhile fun c => !isBlank c) := by
  have split := List.takeWhile_append_dropWhile (p := fun c => !isBlank c) (l := s.toList)
  rw [cutAtBlank, cutChars]
  split
  · next none =>
    rw [none, List.append_nil] at split
    rw [split, String.ofList_toList]
    rfl
  · rfl

/-! ## Solid pieces -/

/-- If only blanks are taken out of a text that begins with a solid piece, then the text that is
left begins with that piece. -/
theorem exists_append_of_sublist {piece rest : List Char} (solid : ∀ c ∈ piece, isBlank c = false)
    (sub : cs.Sublist (piece ++ rest)) (same : stripChars cs = stripChars (piece ++ rest)) :
    ∃ left, cs = piece ++ left ∧ left.Sublist rest ∧ stripChars left = stripChars rest := by
  induction piece generalizing cs with
  | nil => exact ⟨cs, rfl, sub, same⟩
  | cons d piece ih =>
    have first : isBlank d = false := solid d List.mem_cons_self
    rw [List.cons_append, stripChars, stripChars, List.filter_cons_of_pos (by simp [first])] at same
    cases sub with
    | cons _ sub =>
      -- Without `d` too few characters are left.
      have fewer : (stripChars cs).length ≤ (stripChars (piece ++ rest)).length :=
        (sub.filter fun c => !isBlank c).length_le
      rw [stripChars, same, List.length_cons] at fewer
      exact absurd fewer (Nat.not_succ_le_self _)
    | cons_cons _ sub =>
      rw [List.filter_cons_of_pos (by simp [first])] at same
      obtain ⟨left, rfl, sub, same⟩ := ih (fun c hc => solid c (List.mem_cons_of_mem d hc)) sub
        (List.cons.inj same).2
      exact ⟨left, rfl, sub, same⟩

end Worksheet.Text
