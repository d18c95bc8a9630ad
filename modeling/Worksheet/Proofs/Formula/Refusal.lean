import Worksheet.Proofs.Formula.Reading

/-!
# Where a reader stops

A reader that fails has gone some way along its row of tokens: it names the token that it came to,
or the end of the row, or it has found too many levels. It never comes to a place outside the row. A
reader that does not fail takes a part off the front, so the next one begins at a place of the row
again; this is what carries the places through rows of operations and lists of arguments.

Results:
* `located_factor`: factors of any depth are refused at a place of their row.
* `ofTokens_located`: so are whole rows.
-/
namespace Worksheet.Expr

variable {sign? : Char → Option Op} {Operand Factor : List Token → Expr → Prop}
  {operand factor argument : Reader} {ts us rest : List Token} {left : Expr} {es done : List Expr}
  {op : Op} {err : FormulaError}

/-- The tokens are refused for too many levels, or for the token that stands at some place of them,
or for their end. -/
def RefusedIn (ts : List Token) (err : FormulaError) : Prop :=
  err = .tooDeep ∨ ∃ before after expected, ts = before ++ after ∧
    err = .unexpectedToken (foundText after) expected

/-- A reader fails at places of its row only. -/
def Located (read : Reader) : Prop := ∀ ts err, read ts = .error err → RefusedIn ts err

theorem refusedIn_self (ts : List Token) (expected : Expected) :
    RefusedIn ts (.unexpectedToken (foundText ts) expected) :=
  .inr ⟨[], ts, expected, rfl, rfl⟩

theorem RefusedIn.append (h : RefusedIn ts err) (us : List Token) : RefusedIn (us ++ ts) err := by
  rcases h with deep | ⟨before, after, expected, rfl, rfl⟩
  · exact .inl deep
  · exact .inr ⟨us ++ before, after, expected, (List.append_assoc ..).symm, rfl⟩

theorem RefusedIn.cons (h : RefusedIn ts err) (t : Token) : RefusedIn (t :: ts) err := h.append [t]

/-! ## Steps of a reader -/

theorem bind_eq_error_iff {ε α β : Type} {x : Except ε α} {f : α → Except ε β} {e : ε} :
    (x >>= f) = .error e ↔ x = .error e ∨ ∃ a, x = .ok a ∧ f a = .error e := by
  cases x with
  | error d =>
    refine ⟨fun h => .inl (by cases h; rfl), fun h => ?_⟩
    rcases h with h | ⟨_, h, _⟩ <;> cases h
    rfl
  | ok a =>
    refine ⟨fun h => .inr ⟨a, rfl, h⟩, fun h => ?_⟩
    rcases h with h | ⟨_, ⟨⟩, h⟩
    · cases h
    · exact h

theorem takeMark_refused {c : Char} (h : takeMark c ts = .error err) : RefusedIn ts err := by
  unfold takeMark at h
  split at h
  · cases h; exact refusedIn_self [] _
  · split at h
    · cases h
    · cases h; exact refusedIn_self _ _

theorem build_refused (h : build op es = .error err) : RefusedIn ts err := by
  unfold build at h
  split at h
  · cases h
  · cases h; exact .inl rfl

/-! ## Rows and lists -/

theorem Located.chainFrom (located : Located operand) (sound : Sound operand Operand)
    (h : chainFrom sign? operand left ts = .error err) : RefusedIn ts err := by
  fun_induction Expr.chainFrom sign? operand left ts with
  | case1 => cases h
  | case2 => cases h
  | case3 left t ts op signed e failed => cases h; exact (located _ _ failed).cons t
  | case4 left t ts op signed right after found e failed => cases h; exact build_refused failed
  | case5 left t ts op signed right after found tree built shorter ih =>
    obtain ⟨-, us, rfl, -⟩ := sound _ _ _ found
    exact ((ih h).append us).cons t
  | case6 => cases h

theorem Located.chain (located : Located operand) (sound : Sound operand Operand) :
    Located (chain sign? operand) := by
  intro ts err h
  unfold Expr.chain at h
  split at h
  · next e failed => cases h; exact located _ _ failed
  · next left after found =>
    obtain ⟨-, us, rfl, -⟩ := sound _ _ _ found
    exact (located.chainFrom sound h).append us

theorem Located.expressionOf (located : Located factor) (sound : Sound factor Factor) :
    Located (expressionOf factor) :=
  (located.chain sound).chain sound.chain

theorem Located.argumentsFrom (located : Located argument) (sound : Sound argument Operand)
    (h : argumentsFrom argument done ts = .error err) : RefusedIn ts err := by
  fun_induction Expr.argumentsFrom argument done ts with
  | case1 => cases h
  | case2 done t ts comma e failed => cases h; exact (located _ _ failed).cons t
  | case3 done t ts comma e after found shorter ih =>
    obtain ⟨-, us, rfl, -⟩ := sound _ _ _ found
    exact ((ih h).append us).cons t
  | case4 => cases h
  | case5 => cases h

theorem Located.takeArguments (located : Located argument) (sound : Sound argument Operand)
    (h : takeArguments argument ts = .error err) : RefusedIn ts err := by
  simp only [Expr.takeArguments, bind_eq_error_iff, Prod.exists] at h
  rcases h with failed | ⟨_, open_, failed | ⟨e, _, first, failed | ⟨es, _, others, h⟩⟩⟩
  · exact takeMark_refused failed
  · obtain ⟨t, rfl, -⟩ := takeMark_eq_ok_iff.mp open_
    exact (located _ _ failed).cons t
  · obtain ⟨t, rfl, -⟩ := takeMark_eq_ok_iff.mp open_
    obtain ⟨-, us, rfl, -⟩ := sound _ _ _ first
    exact ((located.argumentsFrom sound failed).append us).cons t
  · obtain ⟨t, rfl, -⟩ := takeMark_eq_ok_iff.mp open_
    obtain ⟨-, us, rfl, -⟩ := sound _ _ _ first
    obtain ⟨vs, -, rfl, -, -⟩ := sound.argumentsFrom others
    rcases h with failed | ⟨_, -, h⟩
    · exact (((takeMark_refused failed).append vs).append us).cons t
    · cases h

/-! ## Factors and whole rows -/

theorem located_factor : ∀ depth, Located (Expr.factor depth)
  | 0, _, _, h => by cases h; exact .inl rfl
  | depth + 1, ts, err, h => by
    have sound := (sound_factor depth).expressionOf
    have inner := (located_factor depth).expressionOf (sound_factor depth)
    unfold Expr.factor at h
    split at h
    · cases h; exact refusedIn_self [] _
    · next t ts =>
      split at h
      · cases h
      · cases h
      · simp only [bind_eq_error_iff, Prod.exists] at h
        rcases h with failed | ⟨_, _, -, failed | ⟨_, -, h⟩⟩
        · exact (inner.takeArguments sound failed).cons t
        · exact build_refused failed
        · cases h
      · simp only [bind_eq_error_iff, Prod.exists] at h
        rcases h with failed | ⟨e, _, found, failed | ⟨_, -, h⟩⟩
        · exact (inner _ _ failed).cons t
        · obtain ⟨-, us, rfl, -⟩ := sound _ _ _ found
          exact ((takeMark_refused failed).append us).cons t
        · cases h
      · simp only [bind_eq_error_iff, Prod.exists] at h
        rcases h with failed | ⟨_, _, -, failed | ⟨_, -, h⟩⟩
        · exact (located_factor depth _ _ failed).cons t
        · exact build_refused failed
        · cases h
      · cases h; exact refusedIn_self _ _

/-- A row of tokens is refused for too many levels or for what stands at a place of it: a token that
cannot stand there, or one after the end of an expression. -/
theorem ofTokens_located (h : ofTokens ts = .error err) :
    RefusedIn ts err ∨ ∃ before t after, ts = before ++ t :: after ∧ err = .trailing t.text := by
  unfold ofTokens at h
  split at h
  · next e failed =>
    cases h
    exact .inl ((located_factor maxDepth).expressionOf (sound_factor maxDepth) _ _ failed)
  · cases h
  · next e t rest found =>
    cases h
    obtain ⟨-, us, rfl, -⟩ := (sound_factor maxDepth).expressionOf _ _ _ found
    exact .inr ⟨us, t, rest, rfl, rfl⟩

end Worksheet.Expr
