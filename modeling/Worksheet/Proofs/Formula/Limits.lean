import Worksheet.Proofs.Formula.Nesting

/-!
# What the limits refuse

A row of tokens that the grammar derives is never refused for what stands in it, only for too many
levels. So such a row is read or is too deep, and which of the two is a matter of the height of its
tree and of its nesting.

A factor is open while its own last token is read, so an operand counts as one level beside the
parentheses and negations that it lies in. With `maxDepth` of these open there is no level left for
it: nesting is allowed up to `maxDepth - 1`, and height up to `maxDepth`.

Results:
* `Derives.gives`: a row that the grammar derives is read or is too deep.
* `Derives.ofTokens_eq_ok_iff`, `Derives.ofTokens_eq_tooDeep_iff`: which of the two it is.
* `derives_grouped`: a number in `n` pairs of parentheses has a nesting of `n`.
* `parse_limits`: which texts are parsed of those that the grammar derives.
-/
namespace Worksheet.Expr

variable {ts us : List Token} {t : Token} {e tree : Expr} {base : Position} {text : String}

/-! ## Whole rows -/

namespace Derives

theorem exists_isExpression (h : Derives ts e) : ∃ depth, IsExpression depth ts e := by
  obtain ⟨row, derived, rfl⟩ := h
  refine ⟨(row.map Prod.snd).foldl max 0, derived.isExpression _ fun x hx => ?_⟩
  rw [Nat.zero_add]
  exact (foldl_max_le_iff.mp le_rfl).2 _ (List.mem_map_of_mem hx)

theorem gives (h : Derives ts e) : Gives True (ofTokens ts) e := by
  obtain ⟨levels, isExpression⟩ := h.exists_isExpression
  have found := (answers_factor maxDepth levels (.inl trivial)).expressionOf ts e [] isExpression
    (.inl trivial) ended_nil
  rw [List.append_nil] at found
  unfold Expr.ofTokens
  rcases found with read | ⟨-, deep⟩
  · rw [read]
    exact gives_ok e
  · rw [deep]
    exact .inr ⟨trivial, rfl⟩

theorem ofTokens_eq_ok_iff (h : Derives ts e) :
    ofTokens ts = .ok e ↔ e.height ≤ maxDepth ∧ nesting ts < maxDepth := by
  rw [Expr.ofTokens_eq_ok_iff, isExpression_iff_within (n := 0), Nat.zero_add, h.within_iff, and_comm]

theorem ofTokens_eq_tooDeep_iff (h : Derives ts e) :
    ofTokens ts = .error .tooDeep ↔ maxDepth < e.height ∨ maxDepth ≤ nesting ts := by
  rw [← not_iff_not, not_or, not_lt, not_le, ← h.ofTokens_eq_ok_iff]
  rcases h.gives with read | ⟨-, deep⟩
  · rw [read]
    exact iff_of_true nofun rfl
  · rw [deep]
    exact iff_of_false (absurd rfl) nofun

end Derives

theorem parse_of_scan (scanned : Token.scan base text = .ok ts) : parse base text = ofTokens ts := by
  rw [parse, scanned]
  rfl

/-! ## Texts in parentheses -/

/-- A number in `n` pairs of parentheses. -/
def grouped (n : Nat) : String :=
  String.ofList (List.replicate n '(' ++ '1' :: List.replicate n ')')

def groupedNumeral : Decimal.Numeral := ⟨['1'], [], none⟩

def groupedTokens (n : Nat) : List Token :=
  List.replicate n ⟨.mark '(', "("⟩ ++
    ⟨.number groupedNumeral.value.toFloat, "1"⟩ :: List.replicate n ⟨.mark ')', ")"⟩

theorem spells_replicate_append {c : Char} {cs : List Char} {ls : List Lexeme} (mem : c ∈ marks)
    (h : Lexeme.Spells cs ls) (n : Nat) :
    Lexeme.Spells (List.replicate n c ++ cs) (List.replicate n (.mark c) ++ ls) := by
  induction n with
  | zero => exact h
  | succ n ih => exact Lexeme.spells_mark mem ih

theorem spells_grouped (n : Nat) : Lexeme.Spells (grouped n).toList
    (List.replicate n (.mark '(') ++ .numeral groupedNumeral :: List.replicate n (.mark ')')) := by
  have closings : Lexeme.Spells (List.replicate n ')') (List.replicate n (.mark ')')) := by
    have spells := spells_replicate_append (c := ')') (by decide) .nil n
    rwa [List.append_nil, List.append_nil] at spells
  have whole : (Lexeme.numeral groupedNumeral).Whole := by
    constructor <;> simp [groupedNumeral]
  have stops : Stops (List.replicate n ')') := by
    cases n with
    | zero => exact stops_nil
    | succ n => exact stops_mark (by decide) _
  rw [grouped, String.toList_ofList]
  exact spells_replicate_append (by decide) (.lexeme whole (.inr stops) closings) n

theorem scan_grouped (base : Position) (n : Nat) :
    Token.scan base (grouped n) = .ok (groupedTokens n) := by
  refine Lexeme.scan_of_spells (spells_grouped n) ?_
  simp only [groupedTokens, List.map_append, List.map_cons, List.map_replicate]
  rfl

theorem isFactor_grouped (n : Nat) :
    IsFactor (n + 1) (groupedTokens n) (.number groupedNumeral.value.toFloat) := by
  induction n with
  | zero => exact .number rfl
  | succ n ih =>
    have tokens : groupedTokens (n + 1) =
        ⟨.mark '(', "("⟩ :: (groupedTokens n ++ [⟨.mark ')', ")"⟩]) := by
      rw [groupedTokens, groupedTokens, List.replicate_succ, List.append_assoc, List.cons_append,
        List.cons_append, ← List.replicate_succ']
    rw [tokens]
    exact .group rfl (.single (.single ih)) rfl

theorem le_peak_replicate (kind : t.kind = .mark '(') (opened : List Opening) (n : Nat) :
    opened.length + n ≤ Place.peak ⟨opened, true⟩ (List.replicate n t ++ us) := by
  induction n generalizing opened with
  | zero => exact Place.length_le_peak ⟨opened, true⟩ us
  | succ n ih =>
    have first : Place.after ⟨opened, true⟩ t = ⟨.parenthesis :: opened, true⟩ := by
      simp only [Place.after, kind]
    have deeper := ih (.parenthesis :: opened)
    rw [List.length_cons] at deeper
    rw [List.replicate_succ, List.cons_append, Place.peak, first]
    omega

theorem derives_grouped (n : Nat) :
    Derives (groupedTokens n) (.number groupedNumeral.value.toFloat) ∧
      nesting (groupedTokens n) = n := by
  have isExpression : IsExpression (n + 1) (groupedTokens n)
      (.number groupedNumeral.value.toFloat) := .single (.single (isFactor_grouped n))
  have within := (isExpression_iff_within (n := 0)).mp isExpression
  rw [Nat.zero_add] at within
  have derives : Derives (groupedTokens n) (.number groupedNumeral.value.toFloat) := by
    obtain ⟨row, same, derived, -⟩ := within
    exact ⟨row, derived, same⟩
  have least : ([] : List Opening).length + n ≤ nesting (groupedTokens n) :=
    le_peak_replicate rfl [] n
  rw [List.length_nil, Nat.zero_add] at least
  exact ⟨derives, Nat.le_antisymm (Nat.lt_succ_iff.mp (derives.within_iff.mp within)) least⟩

/-! ## The limits of texts -/

/-- **Limits.** A text whose tokens the grammar derives is parsed, unless the tree is higher than
`maxDepth` or `maxDepth` parentheses and negations are open at once. Then it is refused as too deep,
and for nothing else. -/
theorem parse_limits (scanned : Token.scan base text = .ok ts) (derives : Derives ts tree) :
    (parse base text = .error .tooDeep ↔ maxDepth < tree.height ∨ maxDepth ≤ nesting ts) ∧
      (parse base text = .ok tree ↔ tree.height ≤ maxDepth ∧ nesting ts < maxDepth) := by
  rw [parse_of_scan scanned]
  exact ⟨derives.ofTokens_eq_tooDeep_iff, derives.ofTokens_eq_ok_iff⟩

theorem parse_grouped_255 : ∃ ts tree, Token.scan ⟨0, 0⟩ (grouped 255) = .ok ts ∧
    Derives ts tree ∧ tree.height = 1 ∧ nesting ts = 255 ∧
    parse ⟨0, 0⟩ (grouped 255) = .ok tree := by
  obtain ⟨derives, nested⟩ := derives_grouped 255
  have scanned := scan_grouped ⟨0, 0⟩ 255
  have limits := parse_limits scanned derives
  have shallow : nesting (groupedTokens 255) < maxDepth := by
    rw [nested]
    decide
  exact ⟨_, _, scanned, derives, rfl, nested, limits.2.mpr ⟨by decide, shallow⟩⟩

/-- One in 256 pairs is refused, although neither its tree is higher than `maxDepth` nor are more
parentheses open at once. -/
theorem parse_grouped_256 : ∃ ts tree, Token.scan ⟨0, 0⟩ (grouped 256) = .ok ts ∧
    Derives ts tree ∧ tree.height = 1 ∧ nesting ts = 256 ∧
    parse ⟨0, 0⟩ (grouped 256) = .error .tooDeep ∧
    ¬ (parse ⟨0, 0⟩ (grouped 256) = .error .tooDeep ↔
      maxDepth < tree.height ∨ maxDepth < nesting ts) := by
  obtain ⟨derives, nested⟩ := derives_grouped 256
  have scanned := scan_grouped ⟨0, 0⟩ 256
  have refused : parse ⟨0, 0⟩ (grouped 256) = .error .tooDeep := by
    rw [parse_of_scan scanned]
    exact derives.ofTokens_eq_tooDeep_iff.mpr (.inr (Nat.le_of_eq nested.symm))
  refine ⟨_, _, scanned, derives, rfl, nested, refused, fun claimed => ?_⟩
  rcases claimed.mp refused with high | deep
  · exact absurd high (by decide)
  · rw [nested] at deep
    exact absurd deep (by decide)

end Worksheet.Expr
