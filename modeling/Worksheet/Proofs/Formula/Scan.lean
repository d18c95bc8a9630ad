import Worksheet.Proofs.Formula.Lexeme

/-!
# What a scan keeps of a text

The tokens of a text have all its characters but the blanks, in order. Their texts may be set apart
by any blanks, and are then scanned as the same tokens. A scan that comes to a character that begins
no token has scanned the text before it, since no lexeme depends on what comes behind it but for
where it ends.

Results:
* `Lexeme.scan_of_append`: a lexeme stays the same when its text is cut off behind it.
* `Lexeme.Consists.strip_eq`: the lexemes of a text hold its characters without the blanks.
* `Spaced.spells`: texts of lexemes that are set apart spell these lexemes.
* `Token.scanFrom_unexpected`: where a scan stops at a stray character.
* `Token.scan_keeps`: what is kept of a text, whether it is scanned or refused.
-/
namespace Worksheet

variable {base : Position}

/-- The texts in order, with blanks around them and at least one between any two. -/
inductive Spaced : List String → List Char → Prop
  | nil : Spaced [] []
  | blank {c : Char} {texts : List String} {cs : List Char} :
      Text.isBlank c = true → Spaced texts cs → Spaced texts (c :: cs)
  | text {s : String} {texts : List String} {cs : List Char} :
      (∀ c ∈ cs.head?, Text.isBlank c = true) → Spaced texts cs →
      Spaced (s :: texts) (s.toList ++ cs)

namespace Lexeme

variable {l : Lexeme} {ls : List Lexeme} {cs rest behind : List Char}

/-! ## Texts of lexemes -/

theorem text_of_sense? {t : Token} (h : l.sense? base = some t) : t.text = String.ofList l.text := by
  have token := token_of_sense? h 0
  unfold Lexeme.token at token
  cases l with
  | numeral n => cases token; rfl
  | word cs =>
    simp only at token
    split at token
    · cases token; rfl
    · split at token <;> cases token
      rfl
  | mark c => cases token; rfl
  | stray c => cases token

theorem texts_of_sense? {ts : List Token} (sense : ls.map (sense? base) = ts.map some) :
    ts.map Token.text = ls.map fun l => String.ofList l.text := by
  induction ls generalizing ts with
  | nil => rw [List.map_eq_nil_iff.mp sense.symm]; rfl
  | cons l ls ih =>
    obtain ⟨t, us, rfl, first, others⟩ := List.map_eq_cons_iff.mp sense.symm
    rw [List.map_cons, List.map_cons, text_of_sense? first.symm, ih others.symm]

theorem Consists.whole (h : Consists cs ls) : ∀ l ∈ ls, l.Whole := by
  induction h with
  | nil => nofun
  | blank _ _ ih => exact ih
  | lexeme whole _ ih => exact List.forall_mem_cons.mpr ⟨whole, ih⟩

/-- The lexemes of a text hold its characters without the blanks. -/
theorem Consists.strip_eq (h : Consists cs ls) : Text.stripChars cs = ls.flatMap text := by
  induction h with
  | nil => rfl
  | blank blank _ ih =>
    rw [← ih, Text.stripChars, List.filter_cons_of_neg (by simp [blank])]
    rfl
  | lexeme whole _ ih =>
    rw [Text.strip_append, Text.stripChars_eq_self whole.isBlank_eq_false, ih, List.flatMap_cons]

/-! ## Cutting a text off -/

/-- A lexeme stays the same when its text is cut off anywhere behind it. -/
theorem scan_of_append {c : Char} (h : scan c (cs ++ behind) = (l, rest ++ behind)) :
    scan c cs = (l, rest) := by
  unfold scan at h ⊢
  split at h
  · next digit =>
    obtain ⟨rfl, left⟩ := Prod.mk.inj h
    rw [← List.cons_append] at left ⊢
    rw [if_pos digit, Decimal.Numeral.steady_scan (Prod.ext rfl left)]
  · next digit =>
    rw [if_neg digit]
    split at h
    · next word =>
      obtain ⟨rfl, left⟩ := Prod.mk.inj h
      obtain ⟨same, left⟩ := Decimal.span_of_append left
      rw [if_pos word, same, left]
    · next word =>
      rw [if_neg word]
      split at h <;> obtain ⟨rfl, left⟩ := Prod.mk.inj h
      · next mem => rw [if_pos mem, List.append_cancel_right left]
      · next mem => rw [if_neg mem, List.append_cancel_right left]

/-- The rest of a text may end anywhere without a change to the lexeme before it. -/
theorem scan_cut_off {c : Char} (h : (scan c cs).2 = rest ++ behind) :
    ∃ more, (scan c cs).1.text = c :: more ∧ cs = more ++ rest ++ behind ∧
      scan c (more ++ rest) = ((scan c cs).1, rest) := by
  have lossless := text_append_scan c cs
  obtain ⟨d, more, start⟩ := List.exists_cons_of_ne_nil (text_scan_ne_nil c cs)
  rw [h, start, List.cons_append, ← List.append_assoc] at lossless
  obtain ⟨rfl, rfl⟩ := List.cons.inj lossless
  exact ⟨more, start, rfl, scan_of_append (Prod.ext rfl h)⟩

end Lexeme

/-! ## Texts that are set apart -/

namespace Spaced

variable {texts : List String} {cs gap : List Char}

theorem blanks (blank : ∀ c ∈ gap, Text.isBlank c = true) (h : Spaced texts cs) :
    Spaced texts (gap ++ cs) := by
  induction gap with
  | nil => exact h
  | cons c gap ih =>
    obtain ⟨first, others⟩ := List.forall_mem_cons.mp blank
    exact .blank first (ih others)

theorem intercalate {s : String} (blank : ∀ c ∈ s.toList, Text.isBlank c = true) (ne : s ≠ "") :
    ∀ texts, Spaced texts (s.intercalate texts).toList
  | [] => by
    rw [String.toList_intercalate]
    exact .nil
  | [t] => by
    rw [String.toList_intercalate, List.map_singleton, List.intercalate_singleton]
    have alone : Spaced [t] (t.toList ++ []) := .text nofun .nil
    rwa [List.append_nil] at alone
  | t :: u :: texts => by
    have others := intercalate blank ne (u :: texts)
    rw [String.toList_intercalate, List.map_cons] at others
    rw [String.toList_intercalate, List.map_cons, List.map_cons, List.intercalate_cons_cons,
      List.append_assoc]
    refine .text (fun c hc => ?_) (others.blanks blank)
    -- The blanks between two texts are some, so the first of them stands right behind the text.
    have nonempty : s.toList ≠ [] := fun empty => ne (String.toList_injective empty)
    rw [List.head?_append, Option.or_of_isSome (List.isSome_head?.mpr nonempty)] at hc
    exact blank c (List.mem_of_mem_head? hc)

end Spaced

theorem Spaced.spells {ls : List Lexeme} {cs : List Char} (whole : ∀ l ∈ ls, l.Whole)
    (h : Spaced (ls.map fun l => String.ofList l.text) cs) : Lexeme.Spells cs ls := by
  generalize same : (ls.map fun l => String.ofList l.text) = texts at h
  induction h generalizing ls with
  | nil => rw [List.map_eq_nil_iff.mp same]; exact .nil
  | blank blank _ ih => exact .blank blank (ih whole same)
  | @text s texts cs gap _ ih =>
    obtain ⟨l, ls, rfl, rfl, others'⟩ := List.map_eq_cons_iff.mp same
    obtain ⟨first, others⟩ := List.forall_mem_cons.mp whole
    have stops : Stops cs := by
      cases cs with
      | nil => exact stops_nil
      | cons c cs => exact stops_blank (gap c rfl) cs
    rw [String.toList_ofList]
    exact .lexeme first (.inr stops) (ih others others')

namespace Token

variable {cs : List Char} {c : Char} {place : Nat}

/-! ## Stray characters -/

theorem token_unexpected {l : Lexeme} {offset : Nat}
    (h : l.token base offset = .error (.unexpectedChar c place)) : l = .stray c ∧ place = offset := by
  unfold Lexeme.token at h
  cases l with
  | numeral n => cases h
  | word cs =>
    simp only at h
    split at h
    · cases h
    · split at h <;> cases h
  | mark d => cases h
  | stray d => cases h; exact ⟨rfl, rfl⟩

theorem byteCount_append (cs ds : List Char) :
    byteCount (cs ++ ds) = byteCount cs + byteCount ds := by
  rw [byteCount, String.ofList_append, String.utf8ByteSize_append]
  rfl

theorem byteCount_cons (c : Char) (cs : List Char) :
    byteCount (c :: cs) = c.utf8Size + byteCount cs := by
  rw [← List.singleton_append, byteCount_append, byteCount, ← String.singleton_eq_ofList,
    String.utf8ByteSize_singleton]

/-- A scan that stops at a stray character has scanned the text before it. -/
theorem scanFrom_unexpected {offset : Nat} {done : List Token}
    (h : scanFrom base offset done cs = .error (.unexpectedChar c place)) :
    ∃ before after, cs = before ++ c :: after ∧ place = offset + byteCount before ∧
      (Lexeme.stray c).Whole ∧
      ∃ ts, scanFrom base offset done before = .ok ts := by
  fun_induction scanFrom base offset done cs with
  | case1 => cases h
  | case2 offset done d cs blank ih =>
    obtain ⟨before, after, rfl, rfl, whole, ts, scanned⟩ := ih h
    refine ⟨d :: before, after, rfl, ?_, whole, ts, ?_⟩
    · rw [byteCount_cons, Nat.add_assoc]
    · rw [scanFrom, if_pos blank, scanned]
  | case3 offset done d cs solid e token =>
    cases h
    obtain ⟨stray, rfl⟩ := token_unexpected token
    have whole := Lexeme.whole_scan cs (Bool.eq_false_iff.mpr solid)
    have split := Lexeme.text_append_scan d cs
    rw [stray] at whole split
    exact ⟨[], _, split.symm, rfl, whole, _, by rw [scanFrom]⟩
  | case4 offset done d cs solid t token ih =>
    obtain ⟨before, after, left, rfl, whole, ts, scanned⟩ := ih h
    -- The first lexeme ends before the character, so it may be cut off with what stands before that.
    obtain ⟨more, start, rfl, cut⟩ := Lexeme.scan_cut_off left
    refine ⟨d :: more ++ before, after, ?_, ?_, whole, ts, ?_⟩
    · rw [List.cons_append, List.cons_append]
    · rw [byteCount_append, ← start, Nat.add_assoc]
    · rw [List.cons_append, scanFrom, if_neg solid, cut]
      simp only [token, scanned]

/-! ## Whole texts -/

/-- **Scanning.** The tokens of a text hold its characters without the blanks, each of them some,
and are scanned again off any text in which they are set apart by blanks. A text that is refused for
a character has that character at the place that is named, counted in bytes; it begins no token, and
the text before it is scanned. -/
theorem scan_keeps (base : Position) (text : String) :
    (∀ ts, scan base text = .ok ts →
      (∀ t ∈ ts, t.text ≠ "") ∧ String.join (ts.map Token.text) = Text.strip text ∧
      ∀ other : String, Spaced (ts.map Token.text) other.toList → scan base other = .ok ts) ∧
    ∀ c offset, scan base text = .error (.unexpectedChar c offset) →
      ∃ before after, text = before ++ String.singleton c ++ after ∧
        before.utf8ByteSize = offset ∧ (Lexeme.stray c).Whole ∧
        ∃ ts, scan base before = .ok ts := by
  constructor
  · intro ts scanned
    obtain ⟨ls, consists, sense⟩ := Lexeme.exists_lexemes_of_scan scanned
    have texts := Lexeme.texts_of_sense? sense
    have whole := consists.whole
    refine ⟨fun t ht => ?_, ?_, fun other apart => ?_⟩
    · have mem : t.text ∈ ts.map Token.text := List.mem_map_of_mem ht
      rw [texts] at mem
      obtain ⟨l, hl, same⟩ := List.mem_map.mp mem
      rw [← same]
      exact fun empty => (whole l hl).text_ne_nil (String.ofList_injective empty)
    · refine String.toList_injective ?_
      rw [texts, String.toList_join, List.flatMap_map, Text.strip, String.toList_ofList,
        consists.strip_eq]
      simp only [String.toList_ofList]
    · rw [texts] at apart
      exact Lexeme.scan_of_spells (apart.spells whole) sense
  · intro c offset refused
    obtain ⟨before, after, split, rfl, whole, ts, scanned⟩ := scanFrom_unexpected refused
    refine ⟨String.ofList before, String.ofList after, ?_, (Nat.zero_add _).symm, whole, ts, ?_⟩
    · refine String.toList_injective ?_
      rw [split]
      simp
    · rw [scan, String.toList_ofList, scanned]

/-- A numeral with an exponent before a wide blank, and a point that no digit follows. -/
theorem scan_keeps_power :
    (∃ ts, scan ⟨0, 0⟩ "1.5e2\u3000*a$1" = .ok ts ∧
      ts.map Token.text = ["1.5e2", "*", "a$1"] ∧ (∀ t ∈ ts, t.text ≠ "") ∧
      String.join (ts.map Token.text) = Text.strip "1.5e2\u3000*a$1" ∧
      scan ⟨0, 0⟩ ("\t\u2003".intercalate ["1.5e2", "*", "a$1"]) = .ok ts) ∧
    scan ⟨0, 0⟩ "\u30002*3.%" = .error (.unexpectedChar '.' 6) ∧
      ∃ before after, "\u30002*3.%" = before ++ String.singleton '.' ++ after ∧
        before.utf8ByteSize = 6 ∧ (Lexeme.stray '.').Whole ∧
        ∃ ts, scan ⟨0, 0⟩ before = .ok ts := by
  have texts : ((scan ⟨0, 0⟩ "1.5e2\u3000*a$1").toOption.map fun ts => ts.map Token.text) =
      some ["1.5e2", "*", "a$1"] := by decide +kernel
  have refused : scan ⟨0, 0⟩ "\u30002*3.%" = .error (.unexpectedChar '.' 6) := by decide +kernel
  refine ⟨?_, refused, (scan_keeps ⟨0, 0⟩ _).2 _ _ refused⟩
  cases scanned : scan ⟨0, 0⟩ "1.5e2\u3000*a$1" with
  | error e => rw [scanned] at texts; cases texts
  | ok ts =>
    rw [scanned] at texts
    have texts : ts.map Token.text = ["1.5e2", "*", "a$1"] := Option.some.inj texts
    obtain ⟨nonempty, joined, again⟩ := (scan_keeps ⟨0, 0⟩ _).1 ts scanned
    have blank : "\t\u2003".toList.all Text.isBlank = true := by decide +kernel
    have apart := Spaced.intercalate (List.all_eq_true.mp blank) (by decide) (ts.map Token.text)
    rw [texts] at apart
    exact ⟨ts, rfl, texts, nonempty, joined, again _ (texts ▸ apart)⟩

end Token

end Worksheet
