import Mathlib.Data.List.Chain
import Worksheet.Formula.Token
import Worksheet.Proofs.Decimal.Numeral
import Worksheet.Proofs.Text.Blank

/-!
# Lexemes and the texts that spell them

A text spells a row of lexemes if it consists of their texts, blanks in between, and none of them
could go on into what follows it (`Spells`). Such a text is scanned as that row. Conversely any text
that is scanned consists of whole lexemes and of blanks (`Consists`), and so does what is left of it
when blanks are taken out. If no two of the lexemes could run into one another, the text that is
left spells the same row.

Results:
* `scan_text_append`: a whole lexeme is the longest one of its text, where the text after it ends
  it.
* `Spells.append`: texts that spell lexemes are put together.
* `scan_of_spells`, `scan_error_of_spells`: a text is scanned as the lexemes that it spells, up to
  the first that is no token.
* `exists_lexemes_of_scan`: the lexemes of a text that is scanned.
* `Consists.sublist`, `Consists.spells`: blanks may be taken out of a text, and if of any two
  lexemes in a row one is a mark, the text still spells them.
-/
namespace Worksheet

/-! ## Characters -/

theorem isWordChar_of_isDigit {c : Char} (h : c.isDigit = true) : isWordChar c = true := by
  simp [isWordChar, Char.isAlphanum, h]

theorem isDigit_of_isWordChar {c : Char} (h : isWordChar c = false) : c.isDigit = false :=
  Bool.eq_false_iff.mpr fun digit => by simp [isWordChar_of_isDigit digit] at h

theorem isBlank_of_isWordChar {c : Char} (h : isWordChar c = true) : Text.isBlank c = false := by
  simp only [isWordChar, Bool.or_eq_true, decide_eq_true_eq] at h
  rcases h with (h | rfl) | rfl
  · exact Text.isBlank_of_isAlphanum h
  · decide
  · decide

theorem apart_of_mem_marks {c : Char} (h : c ∈ marks) :
    Text.isBlank c = false ∧ isWordChar c = false ∧ c ≠ '.' := by
  simp only [marks, List.mem_cons, List.not_mem_nil, or_false] at h
  rcases h with rfl | rfl | rfl | rfl | rfl | rfl | rfl <;> decide

/-- No lexeme goes on into the text. -/
def Stops (rest : List Char) : Prop := ∀ c ∈ rest.head?, isWordChar c = false ∧ c ≠ '.'

theorem stops_nil : Stops [] := fun _ h => nomatch h

theorem stops_mark {c : Char} (h : c ∈ marks) (rest : List Char) : Stops (c :: rest) := by
  intro _ first
  cases first
  exact (apart_of_mem_marks h).2

theorem stops_blank {c : Char} (h : Text.isBlank c = true) (rest : List Char) :
    Stops (c :: rest) := by
  intro _ first
  cases first
  refine ⟨Bool.eq_false_iff.mpr fun word => ?_, fun same => ?_⟩
  · rw [isBlank_of_isWordChar word] at h
    cases h
  · rw [same] at h
    exact absurd h (by decide)

theorem Stops.append {rest more : List Char} (h : Stops rest) (h' : Stops more) :
    Stops (rest ++ more) := by
  cases rest with
  | nil => exact h'
  | cons c rest => exact h

theorem Stops.ends {rest : List Char} (h : Stops rest) : Decimal.Ends rest := by
  intro c hc
  obtain ⟨word, dot⟩ := h c hc
  refine ⟨?_, dot, ?_, ?_⟩
  · exact isDigit_of_isWordChar word
  · intro same
    subst same
    exact absurd word (by decide)
  · intro same
    subst same
    exact absurd word (by decide)

/-! ## Whole lexemes -/

namespace Lexeme

variable {base : Position} {l : Lexeme} {ls ms : List Lexeme} {cs ds rest : List Char}

/-- The lexeme is one that a scan can give. -/
def Whole : Lexeme → Prop
  | numeral n => n.WellFormed
  | word cs => (∃ c ∈ cs.head?, c.isDigit = false) ∧ ∀ c ∈ cs, isWordChar c = true
  | mark c => c ∈ marks
  | stray c => Text.isBlank c = false ∧ isWordChar c = false ∧ c ∉ marks

/-- A lexeme of one character that never goes on. -/
def Single : Lexeme → Prop
  | mark _ | stray _ => True
  | _ => False

theorem whole_scan {c : Char} (cs : List Char) (solid : Text.isBlank c = false) :
    (scan c cs).1.Whole := by
  unfold scan
  split
  · next digit => exact Decimal.Numeral.wellFormed_scan cs digit
  · next digit =>
    split
    · next word =>
      refine ⟨⟨c, rfl, Bool.eq_false_iff.mpr digit⟩, fun d hd => ?_⟩
      rcases List.mem_cons.mp hd with rfl | hd
      · exact word
      · exact List.mem_takeWhile_imp hd
    · next word =>
      split
      · next mem => exact mem
      · next mem => exact ⟨solid, Bool.eq_false_iff.mpr word, mem⟩

theorem Whole.isBlank_eq_false (h : l.Whole) : ∀ c ∈ l.text, Text.isBlank c = false := by
  intro c hc
  cases l with
  | numeral n =>
    rcases h.mem_text hc with digit | other
    · exact isBlank_of_isWordChar (isWordChar_of_isDigit digit)
    · simp only [List.mem_cons, List.not_mem_nil, or_false] at other
      rcases other with rfl | rfl | rfl | rfl | rfl <;> decide
  | word cs => exact isBlank_of_isWordChar (h.2 c hc)
  | mark d => rw [List.mem_singleton.mp hc]; exact (apart_of_mem_marks h).1
  | stray d => rw [List.mem_singleton.mp hc]; exact h.1

theorem Whole.text_ne_nil (h : l.Whole) : l.text ≠ [] := by
  cases l with
  | numeral n => exact List.append_ne_nil_of_left_ne_nil h.whole_ne_nil _
  | word cs =>
    obtain ⟨⟨c, hc, -⟩, -⟩ := h
    exact List.ne_nil_of_mem (List.mem_of_mem_head? hc)
  | mark c => exact List.cons_ne_nil c []
  | stray c => exact List.cons_ne_nil c []

/-- A whole lexeme is scanned back off its text, if it cannot go on into the text after it. -/
theorem scan_text_append {c : Char} (h : l.Whole) (stop : l.Single ∨ Stops rest)
    (split : l.text ++ rest = c :: cs) : scan c cs = (l, rest) := by
  cases l with
  | numeral n =>
    have stop := stop.resolve_left id
    have scanned := Decimal.Numeral.scan_text_append h stop.ends
    have digit : c.isDigit = true := by
      obtain ⟨d, ds, same⟩ := List.exists_cons_of_ne_nil h.whole_ne_nil
      have : d = c := by
        rw [text, Decimal.Numeral.text, same] at split
        exact (List.cons.inj split).1
      exact this ▸ h.whole d (same ▸ List.mem_cons_self)
    rw [text] at split
    rw [scan, if_pos digit, ← split, scanned]
  | word ds =>
    have ends : Stops rest := stop.resolve_left id
    obtain ⟨⟨d, hd, digit⟩, word⟩ := h
    obtain ⟨more, rfl⟩ := List.head?_eq_some_iff.mp hd
    rw [text, List.cons_append] at split
    obtain ⟨rfl, rfl⟩ := List.cons.inj split
    have tail : ∀ c ∈ more, isWordChar c = true := fun c hc => word c (List.mem_cons_of_mem d hc)
    have none : rest.takeWhile isWordChar = [] ∧ rest.dropWhile isWordChar = rest := by
      cases rest with
      | nil => exact ⟨rfl, rfl⟩
      | cons c rest => simp [(ends c rfl).1]
    rw [scan, if_neg (by simp [digit]), if_pos (word d List.mem_cons_self),
      List.takeWhile_append_of_pos tail, List.dropWhile_append_of_pos tail, none.1, none.2,
      List.append_nil]
  | mark d =>
    obtain ⟨rfl, rfl⟩ := List.cons.inj split
    have word := (apart_of_mem_marks h).2.1
    simp [scan, isDigit_of_isWordChar word, word, show d ∈ marks from h]
  | stray d =>
    obtain ⟨rfl, rfl⟩ := List.cons.inj split
    obtain ⟨-, word, mem⟩ := h
    simp [scan, isDigit_of_isWordChar word, word, mem]

/-! ## Spelling -/

/-- The text consists of the lexemes and of blanks, and no lexeme could go on into what follows
it. -/
inductive Spells : List Char → List Lexeme → Prop
  | nil : Spells [] []
  | blank {c : Char} {cs : List Char} {ls : List Lexeme} :
      Text.isBlank c = true → Spells cs ls → Spells (c :: cs) ls
  | lexeme {l : Lexeme} {rest : List Char} {ls : List Lexeme} :
      l.Whole → l.Single ∨ Stops rest → Spells rest ls → Spells (l.text ++ rest) (l :: ls)

theorem Spells.append (h : Spells cs ls) (h' : Spells ds ms) (stop : Stops ds) :
    Spells (cs ++ ds) (ls ++ ms) := by
  induction h with
  | nil => exact h'
  | blank solid _ ih => exact .blank solid ih
  | lexeme whole ends _ ih =>
    rw [List.append_assoc, List.cons_append]
    exact .lexeme whole (ends.imp_right fun ends => ends.append stop) ih

theorem spells_mark {c : Char} (h : c ∈ marks) (spells : Spells cs ls) :
    Spells (c :: cs) (mark c :: ls) :=
  .lexeme (l := mark c) h (.inl trivial) spells

/-- The text consists of whole lexemes and of blanks. -/
inductive Consists : List Char → List Lexeme → Prop
  | nil : Consists [] []
  | blank {c : Char} {cs : List Char} {ls : List Lexeme} :
      Text.isBlank c = true → Consists cs ls → Consists (c :: cs) ls
  | lexeme {l : Lexeme} {rest : List Char} {ls : List Lexeme} :
      l.Whole → Consists rest ls → Consists (l.text ++ rest) (l :: ls)

namespace Consists

theorem sublist (h : Consists cs ls) (sub : ds.Sublist cs)
    (same : Text.stripChars ds = Text.stripChars cs) : Consists ds ls := by
  induction h generalizing ds with
  | nil => exact List.sublist_nil.mp sub ▸ .nil
  | @blank c cs ls blank _ ih =>
    have skipped : Text.stripChars (c :: cs) = Text.stripChars cs :=
      List.filter_cons_of_neg (by simp [blank])
    cases sub with
    | cons _ sub => exact ih sub (same.trans skipped)
    | cons_cons _ sub =>
      refine .blank blank (ih sub ?_)
      rw [← skipped, ← same]
      exact (List.filter_cons_of_neg (by simp [blank])).symm
  | lexeme whole _ ih =>
    obtain ⟨left, rfl, sub, same⟩ :=
      Text.exists_append_of_sublist whole.isBlank_eq_false sub same
    exact .lexeme whole (ih sub same)

theorem stops (h : Consists cs ls) (first : ∀ l ∈ ls.head?, ∃ c, l = mark c) : Stops cs := by
  cases h with
  | nil => exact stops_nil
  | blank blank _ => exact stops_blank blank _
  | lexeme whole _ =>
    obtain ⟨c, rfl⟩ := first _ rfl
    exact stops_mark whole _

/-- The text spells its lexemes, if of any two in a row one is a mark. -/
theorem spells (h : Consists cs ls)
    (apart : ls.IsChain fun l m => (∃ c, l = mark c) ∨ ∃ c, m = mark c) : Spells cs ls := by
  induction h with
  | nil => exact .nil
  | blank blank _ ih => exact .blank blank (ih apart)
  | @lexeme l rest ls whole rest' ih =>
    refine .lexeme whole ?_ (ih apart.tail)
    by_cases single : ∃ c, l = mark c
    · obtain ⟨c, rfl⟩ := single
      exact .inl trivial
    · exact .inr (rest'.stops fun m hm => (apart.rel_head? hm).resolve_left single)

end Consists

/-! ## Scanning -/

/-- The token of a lexeme in a formula at `base`, if it is one. -/
def sense? (base : Position) (l : Lexeme) : Option Token := (l.token base 0).toOption

theorem sense?_of_token {t : Token} {offset : Nat} (h : l.token base offset = .ok t) :
    l.sense? base = some t := by
  have same : l.token base 0 = .ok t := by
    cases l with
    | stray c => cases h
    | _ => exact h
  rw [sense?, same]
  rfl

theorem token_of_sense? {t : Token} (h : l.sense? base = some t) (offset : Nat) :
    l.token base offset = .ok t := by
  have same : l.token base 0 = .ok t := by
    unfold sense? at h
    cases ht : l.token base 0 with
    | error e => rw [ht] at h; cases h
    | ok u => rw [ht] at h; cases h; rfl
  cases l with
  | stray c => cases same
  | _ => exact same

/-- A scan that comes to a whole lexeme goes on after it, or stops if it is no token. -/
theorem scanFrom_text_append {offset : Nat} {done : List Token} (h : l.Whole)
    (stop : l.Single ∨ Stops rest) :
    Token.scanFrom base offset done (l.text ++ rest) =
      match l.token base offset with
      | .error e => .error e
      | .ok t => Token.scanFrom base (offset + byteCount l.text) (t :: done) rest := by
  obtain ⟨c, cs, split⟩ := List.exists_cons_of_ne_nil h.text_ne_nil
  have solid := h.isBlank_eq_false c (split ▸ List.mem_cons_self)
  have whole : l.text ++ rest = c :: (cs ++ rest) := by rw [split]; rfl
  cases token : l.token base offset with
  | error e =>
    rw [whole, Token.scanFrom, if_neg (by simp [solid]), scan_text_append h stop whole]
    simp only [token]
  | ok t =>
    rw [whole, Token.scanFrom, if_neg (by simp [solid]), scan_text_append h stop whole]
    simp only [token]

theorem scan_of_spells {text : String} {ts : List Token} (h : Spells text.toList ls)
    (sense : ls.map (sense? base) = ts.map some) : Token.scan base text = .ok ts := by
  suffices run : ∀ offset done, Token.scanFrom base offset done text.toList =
      .ok (done.reverse ++ ts) from run 0 []
  generalize text.toList = cs at h
  induction h generalizing ts with
  | nil =>
    intro offset done
    rw [List.map_eq_nil_iff.mp sense.symm, Token.scanFrom, List.append_nil]
  | blank solid _ ih =>
    intro offset done
    rw [Token.scanFrom, if_pos solid, ih sense]
  | lexeme whole ends _ ih =>
    intro offset done
    obtain ⟨t, us, rfl, first, others⟩ := List.map_eq_cons_iff.mp sense.symm
    rw [scanFrom_text_append whole ends, token_of_sense? first.symm]
    simp only [ih others.symm, List.reverse_cons, List.append_assoc, List.singleton_append]

/-- A text is refused at the first stray character that it spells. -/
theorem scan_error_of_spells {text : String} {c : Char} (h : Spells text.toList (ls ++ stray c :: ms))
    (sense : ∀ l ∈ ls, (l.sense? base).isSome) :
    ∃ offset, Token.scan base text = .error (.unexpectedChar c offset) := by
  suffices run : ∀ offset done, ∃ place, Token.scanFrom base offset done text.toList =
      .error (.unexpectedChar c place) from run 0 []
  generalize text.toList = cs at h
  generalize split : ls ++ stray c :: ms = all at h
  induction h generalizing ls with
  | nil => exact absurd split (by simp)
  | blank solid _ ih =>
    intro offset done
    obtain ⟨place, refused⟩ := ih sense split (offset + _) done
    exact ⟨place, by rw [Token.scanFrom, if_pos solid, refused]⟩
  | @lexeme l rest all whole ends _ ih =>
    intro offset done
    rw [scanFrom_text_append whole ends]
    cases ls with
    | nil =>
      obtain ⟨rfl, -⟩ := List.cons.inj split
      exact ⟨offset, rfl⟩
    | cons m ls =>
      obtain ⟨rfl, others⟩ := List.cons.inj split
      obtain ⟨t, ht⟩ := Option.isSome_iff_exists.mp (sense _ List.mem_cons_self)
      simp only [token_of_sense? ht]
      exact ih (fun l hl => sense l (List.mem_cons_of_mem _ hl)) others _ _

/-- The lexemes of a text that is scanned: the text consists of them and of blanks, and they have
the tokens that were scanned. -/
theorem exists_lexemes_of_scan {text : String} {ts : List Token}
    (h : Token.scan base text = .ok ts) :
    ∃ ls : List Lexeme, Consists text.toList ls ∧ ls.map (sense? base) = ts.map some := by
  suffices run : ∀ offset done cs, Token.scanFrom base offset done cs = .ok ts →
      ∃ (ls : List Lexeme) (us : List Token), ts = done.reverse ++ us ∧ Consists cs ls ∧
        ls.map (sense? base) = us.map some by
    obtain ⟨ls, us, rfl, found⟩ := run 0 [] text.toList h
    exact ⟨ls, found⟩
  intro offset done cs h
  fun_induction Token.scanFrom base offset done cs with
  | case1 offset done =>
    cases h
    exact ⟨[], [], (List.append_nil _).symm, .nil, rfl⟩
  | case2 offset done c cs blank ih =>
    obtain ⟨ls, us, split, consists, sense⟩ := ih h
    exact ⟨ls, us, split, .blank blank consists, sense⟩
  | case3 => cases h
  | case4 offset done c cs solid t ht ih =>
    obtain ⟨ls, us, split, consists, sense⟩ := ih h
    refine ⟨(scan c cs).1 :: ls, t :: us, by simp [split], ?_, ?_⟩
    · rw [← text_append_scan c cs]
      exact .lexeme (whole_scan cs (Bool.eq_false_iff.mpr solid)) consists
    · rw [List.map_cons, List.map_cons, sense?_of_token ht, sense]

end Lexeme

end Worksheet
