import Worksheet.Proofs.Formula.Foresight
import Worksheet.Proofs.Formula.Limits

/-!
# The first token that is wrong

A formula that is refused for a token is refused for it whatever comes behind, and what was read
before it can be completed. A sentence of the grammar is not refused for what stands in it. So the
token for which a formula is refused is the first that no sentence has at its place, and a formula
is refused for what comes after its end only if it was a sentence up to there.

Results:
* `IsSentence.eq_tooDeep`: a sentence is refused for too many levels only.
* `exists_firstWrong_of_unexpected`, `exists_firstWrong_of_trailing`: what a row of tokens is
  refused for.
* `parse_first_wrong`: the token for which a text is refused.
-/
namespace Worksheet.Expr

variable {ts : List Token} {e : Expr} {err : FormulaError} {found : String} {expected : Expected}
  {depth : Nat} {base : Position} {text : String}

/-! ## Sentences -/

/-- The grammar derives a tree from the tokens. -/
def IsSentence (ts : List Token) : Prop := ∃ e, Derives ts e

/-- A sentence begins with the tokens. -/
def Viable (ts : List Token) : Prop := ∃ more, IsSentence (ts ++ more)

theorem isSentence_of_isExpression (h : IsExpression depth ts e) : IsSentence ts := by
  obtain ⟨row, same, derived, -⟩ := (isExpression_iff_within (n := 0)).mp h
  exact ⟨e, row, derived, same⟩

/-! ## Whole rows -/

theorem predictive_expression :
    Predictive (Expr.expressionOf (Expr.factor maxDepth)) (IsExpression (maxDepth + 1)) :=
  (predictive_factor maxDepth).expressionOf

theorem IsSentence.eq_tooDeep (h : IsSentence ts) (refused : ofTokens ts = .error err) :
    err = .tooDeep := by
  obtain ⟨e, derives⟩ := h
  rcases derives.gives with read | ⟨-, deep⟩
  · rw [read] at refused; cases refused
  · rw [deep] at refused; cases refused; rfl

theorem ofTokens_eq_unexpected_iff : ofTokens ts = .error (.unexpectedToken found expected) ↔
    Expr.expressionOf (Expr.factor maxDepth) ts = .error (.unexpectedToken found expected) := by
  unfold ofTokens
  split
  · next e failed => rw [failed]; simp
  · next tree taken => rw [taken]; simp
  · next tree t rest taken => rw [taken]; simp

theorem ofTokens_eq_trailing_iff : ofTokens ts = .error (.trailing found) ↔
    ∃ tree t rest, Expr.expressionOf (Expr.factor maxDepth) ts = .ok (tree, t :: rest) ∧
      found = t.text := by
  unfold ofTokens
  split
  · next e failed =>
    rw [failed]
    refine iff_of_false (fun h => ?_) nofun
    cases h
    rcases (located_factor maxDepth).expressionOf (sound_factor maxDepth) _ _ failed with
      deep | ⟨_, _, _, -, unexpected⟩
    · cases deep
    · cases unexpected
  · next tree taken => rw [taken]; simp
  · next tree t rest taken => rw [taken]; simp [eq_comm]

/-- The row is `before`, with which a sentence begins, and `after`: no sentence goes on with the
token after `before`, and if there is none then `before` is no sentence. -/
structure FirstWrong (ts before after : List Token) : Prop where
  split : ts = before ++ after
  viable : Viable before
  wrong : ∀ t ∈ after.head?, ¬ Viable (before ++ [t])
  incomplete : after = [] → ¬ IsSentence before

/-- A row that is refused for a token, or for its end, is refused for the first that is wrong, and
is no sentence up to there. -/
theorem exists_firstWrong_of_unexpected
    (h : ofTokens ts = .error (.unexpectedToken found expected)) :
    ∃ before after, FirstWrong ts before after ∧ found = foundText after ∧ ¬ IsSentence before := by
  obtain ⟨us, rest, rfl, rfl, ⟨more, e, isExpression⟩, refuses⟩ :=
    predictive_expression.refused (ofTokens_eq_unexpected_iff.mp h)
  -- The row that ends before the token, and every row that goes on with it, is refused as this one.
  have incomplete : ¬ IsSentence us := by
    intro sentence
    have refused := ofTokens_eq_unexpected_iff.mpr (refuses [] nofun)
    rw [List.append_nil] at refused
    cases sentence.eq_tooDeep refused
  refine ⟨us, rest, ⟨rfl, ⟨more, isSentence_of_isExpression isExpression⟩, fun t ht viable => ?_,
    fun _ => incomplete⟩, rfl, incomplete⟩
  obtain ⟨others, sentence⟩ := viable
  rw [List.append_assoc] at sentence
  have alike : Alike rest ([t] ++ others) := fun u hu => by cases hu; exact ht
  cases sentence.eq_tooDeep (ofTokens_eq_unexpected_iff.mpr (refuses _ alike))

/-- A row that is refused for a token after its end is a sentence up to there, and no sentence goes
on with that token. -/
theorem exists_firstWrong_of_trailing (h : ofTokens ts = .error (.trailing found)) :
    ∃ before after, FirstWrong ts before after ∧ found = foundText after ∧ IsSentence before := by
  obtain ⟨tree, t, rest, taken, rfl⟩ := ofTokens_eq_trailing_iff.mp h
  obtain ⟨us, rfl, isExpression, takes⟩ := predictive_expression.taken taken
  have sentence : IsSentence us := isSentence_of_isExpression isExpression
  refine ⟨us, t :: rest, ⟨rfl, ⟨[], by rwa [List.append_nil]⟩, fun u hu viable => ?_, nofun⟩, rfl,
    sentence⟩
  cases hu
  obtain ⟨others, longer⟩ := viable
  rw [List.append_assoc] at longer
  cases longer.eq_tooDeep
    (ofTokens_eq_trailing_iff.mpr ⟨tree, t, others, takes _ fun _ first => first, rfl⟩)

/-! ## Texts -/

/-- **The first wrong token.** A text that is scanned and then refused for a token, or for its end,
is refused for the first that is wrong. The tokens before it are a sentence if and only if it is
refused for what comes after the end of an expression. -/
theorem parse_first_wrong (scanned : Token.scan base text = .ok ts)
    (refused : (∃ expected, parse base text = .error (.unexpectedToken found expected)) ∨
      parse base text = .error (.trailing found)) :
    ∃ before after, FirstWrong ts before after ∧ found = foundText after ∧
      (parse base text = .error (.trailing found) ↔ IsSentence before) := by
  rw [parse_of_scan scanned] at refused ⊢
  rcases refused with ⟨expected, unexpected⟩ | trailing
  · obtain ⟨before, after, first, same, incomplete⟩ := exists_firstWrong_of_unexpected unexpected
    rw [unexpected]
    exact ⟨before, after, first, same, iff_of_false nofun incomplete⟩
  · obtain ⟨before, after, first, same, sentence⟩ := exists_firstWrong_of_trailing trailing
    exact ⟨before, after, first, same, iff_of_true trailing sentence⟩

theorem eq_error_of_map {ε α β : Type} {x : Except ε α} {f : α → β} {e : ε}
    (h : x.map f = .error e) : x = .error e := by
  cases x with
  | error d => cases h; rfl
  | ok a => cases h

/-- Parentheses that go on with a number, and a formula that goes on after its end. -/
theorem parse_first_wrong_call :
    (∃ ts before after, Token.scan ⟨1, 1⟩ "-max(a$1, (2 3)*4)" = .ok ts ∧
      parse ⟨1, 1⟩ "-max(a$1, (2 3)*4)" = .error (.unexpectedToken "3" (.mark ')')) ∧
      FirstWrong ts before after ∧ "3" = foundText after ∧ ¬ IsSentence before) ∧
    ∃ ts before after, Token.scan ⟨1, 1⟩ "min(2, b2*-3) a1" = .ok ts ∧
      parse ⟨1, 1⟩ "min(2, b2*-3) a1" = .error (.trailing "a1") ∧
      FirstWrong ts before after ∧ "a1" = foundText after ∧ IsSentence before := by
  have unexpected : parse ⟨1, 1⟩ "-max(a$1, (2 3)*4)" = .error (.unexpectedToken "3" (.mark ')')) :=
    eq_error_of_map (f := fun _ => ()) (by decide +kernel)
  have trailing : parse ⟨1, 1⟩ "min(2, b2*-3) a1" = .error (.trailing "a1") :=
    eq_error_of_map (f := fun _ => ()) (by decide +kernel)
  constructor
  · have ok : (Token.scan ⟨1, 1⟩ "-max(a$1, (2 3)*4)").toOption.isSome = true := by decide +kernel
    cases scanned : Token.scan ⟨1, 1⟩ "-max(a$1, (2 3)*4)" with
    | error e => rw [scanned] at ok; cases ok
    | ok ts =>
      obtain ⟨before, after, first, same, iff⟩ :=
        parse_first_wrong scanned (.inl ⟨_, unexpected⟩)
      rw [unexpected] at iff
      exact ⟨ts, before, after, rfl, unexpected, first, same,
        fun sentence => nomatch iff.mpr sentence⟩
  · have ok : (Token.scan ⟨1, 1⟩ "min(2, b2*-3) a1").toOption.isSome = true := by decide +kernel
    cases scanned : Token.scan ⟨1, 1⟩ "min(2, b2*-3) a1" with
    | error e => rw [scanned] at ok; cases ok
    | ok ts =>
      obtain ⟨before, after, first, same, iff⟩ := parse_first_wrong scanned (.inr trailing)
      exact ⟨ts, before, after, rfl, trailing, first, same, iff.mp trailing⟩

end Worksheet.Expr
