import Worksheet.Proofs.Formula.Parsed
import Worksheet.Proofs.Formula.Refusal

/-!
# Derivations

The grammar as it is written down, without a bound and without a reader:

```text
expression := term (('+' | '-') term)*
term       := factor (('*' | '/') factor)*
factor     := number | reference | '-' factor | '(' expression ')' | function '(' arguments ')'
arguments  := expression (',' expression)*
```

In a derivation every token is marked with the number of factors that it lies in, the innermost one
counted. An expression with so many levels to open is one that has a derivation in which no mark is
higher, and so the texts that are parsed are those with such a derivation.

Results:
* `isExpression_iff_within`: levels to open and marks in a derivation bound the same expressions.
* `parse_eq_ok_iff_derived`: which texts are parsed, and as which trees; and no reader leaves its
  row of tokens.
-/
namespace Worksheet.Expr

/-- Tokens, each marked with the number of factors that it lies in. -/
abbrev Marked := List (Token × Nat)

/-! ## The rules -/

namespace Derived

mutual

/-- `expression := term (('+' | '-') term)*` inside of `n` factors. The tree is taken from the
left. -/
inductive Expression : (n : Nat) → Marked → Expr → Prop
  | first {n : Nat} {row : Marked} {e : Expr} : Term n row e → Expression n row e
  | next {n : Nat} {row more : Marked} {t : Token} {op : Op} {left right : Expr} :
      Expression n row left → t.sign? Op.ofSumSign? = some op → Term n more right →
      Expression n (row ++ (t, n) :: more) (.apply op [left, right])

/-- `term := factor (('*' | '/') factor)*` inside of `n` factors. The tree is taken from the left.
-/
inductive Term : (n : Nat) → Marked → Expr → Prop
  | first {n : Nat} {row : Marked} {e : Expr} : Factor n row e → Term n row e
  | next {n : Nat} {row more : Marked} {t : Token} {op : Op} {left right : Expr} :
      Term n row left → t.sign? Op.ofProductSign? = some op → Factor n more right →
      Term n (row ++ (t, n) :: more) (.apply op [left, right])

/-- `factor := number | reference | '-' factor | '(' expression ')' | function '(' arguments ')'`
inside of `n` factors; its own tokens lie in one more. -/
inductive Factor : (n : Nat) → Marked → Expr → Prop
  | number {n : Nat} {t : Token} {x : Float} : t.kind = .number x →
      Factor n [(t, n + 1)] (.number x)
  | reference {n : Nat} {t : Token} {r : Reference} : t.kind = .reference r →
      Factor n [(t, n + 1)] (.reference r)
  | negation {n : Nat} {t : Token} {row : Marked} {e : Expr} : t.kind = .mark '-' →
      Factor (n + 1) row e → Factor n ((t, n + 1) :: row) (.apply .sub [e])
  | group {n : Nat} {opening closing : Token} {row : Marked} {e : Expr} :
      opening.kind = .mark '(' → Expression (n + 1) row e → closing.kind = .mark ')' →
      Factor n ((opening, n + 1) :: (row ++ [(closing, n + 1)])) e
  | call {n : Nat} {t opening closing : Token} {op : Op} {row : Marked} {es : List Expr} :
      t.kind = .function op → opening.kind = .mark '(' → Arguments (n + 1) row es →
      closing.kind = .mark ')' →
      Factor n ((t, n + 1) :: (opening, n + 1) :: (row ++ [(closing, n + 1)])) (.apply op es)

/-- `arguments := expression (',' expression)*` inside of `n` factors. -/
inductive Arguments : (n : Nat) → Marked → List Expr → Prop
  | last {n : Nat} {row : Marked} {e : Expr} : Expression n row e → Arguments n row [e]
  | more {n : Nat} {row more : Marked} {t : Token} {e : Expr} {es : List Expr} :
      Expression n row e → t.kind = .mark ',' → Arguments n more es →
      Arguments n (row ++ (t, n) :: more) (e :: es)

end

end Derived

/-- The tokens have a derivation in which none of them lies in more than `bound` factors. -/
def Within {α : Type} (bound : Nat) (Derivation : Marked → α → Prop) (ts : List Token) (a : α) :
    Prop :=
  ∃ row, row.map Prod.fst = ts ∧ Derivation row a ∧ ∀ x ∈ row, x.2 ≤ bound

variable {sign? : Char → Option Op} {Operand : List Token → Expr → Prop} {ts us : List Token}
  {t : Token} {e : Expr} {es : List Expr} {depth bound : Nat}

/-! ## From derivations to levels -/

namespace Derived

mutual

/-- The levels that a derivation inside of `n` factors opens are those by which its marks pass
`n`. -/
theorem Expression.isExpression {n : Nat} {row : Marked} {e : Expr} (h : Expression n row e)
    (depth : Nat) (low : ∀ x ∈ row, x.2 ≤ n + depth) :
    IsExpression depth (row.map Prod.fst) e := by
  match h with
  | .first h => exact .single (h.isTerm depth low)
  | .next hl sign hr =>
    obtain ⟨low, lower⟩ := List.forall_mem_append.mp low
    rw [List.map_append, List.map_cons]
    exact .join (hl.isExpression depth low) sign
      (hr.isTerm depth (List.forall_mem_cons.mp lower).2)

theorem Term.isTerm {n : Nat} {row : Marked} {e : Expr} (h : Term n row e) (depth : Nat)
    (low : ∀ x ∈ row, x.2 ≤ n + depth) : TermOf (IsFactor depth) (row.map Prod.fst) e := by
  match h with
  | .first h => exact .single (h.isFactor depth low)
  | .next hl sign hr =>
    obtain ⟨low, lower⟩ := List.forall_mem_append.mp low
    rw [List.map_append, List.map_cons]
    exact .join (hl.isTerm depth low) sign (hr.isFactor depth (List.forall_mem_cons.mp lower).2)

theorem Factor.isFactor {n : Nat} {row : Marked} {e : Expr} (h : Factor n row e) (depth : Nat)
    (low : ∀ x ∈ row, x.2 ≤ n + depth) : IsFactor depth (row.map Prod.fst) e := by
  cases depth with
  | zero =>
    -- A factor has a token of its own, so a level must be left for it.
    obtain ⟨t, more, rfl⟩ : ∃ t more, row = (t, n + 1) :: more := by cases h <;> exact ⟨_, _, rfl⟩
    exact absurd ((List.forall_mem_cons.mp low).1) (Nat.not_succ_le_self n)
  | succ depth =>
    have inner : n + (depth + 1) = n + 1 + depth := by omega
    rw [inner] at low
    match h with
    | .number kind => exact .number kind
    | .reference kind => exact .reference kind
    | .negation kind h =>
      exact .negation kind (h.isFactor depth (List.forall_mem_cons.mp low).2)
    | .group open_ h close =>
      obtain ⟨low, -⟩ := List.forall_mem_append.mp (List.forall_mem_cons.mp low).2
      rw [List.map_cons, List.map_append]
      exact .group open_ (h.isExpression depth low) close
    | .call kind open_ h close =>
      obtain ⟨low, -⟩ :=
        List.forall_mem_append.mp (List.forall_mem_cons.mp (List.forall_mem_cons.mp low).2).2
      obtain ⟨ts, us, first, others, same, rfl, isExpression, further⟩ :=
        h.exists_further depth low
      rw [List.map_cons, List.map_cons, List.map_append, same, List.append_assoc]
      exact .call kind open_ isExpression further close

theorem Arguments.exists_further {n : Nat} {row : Marked} {es : List Expr}
    (h : Arguments n row es) (depth : Nat) (low : ∀ x ∈ row, x.2 ≤ n + depth) :
    ∃ ts us e more, row.map Prod.fst = ts ++ us ∧ es = e :: more ∧ IsExpression depth ts e ∧
      Further (IsExpression depth) us more := by
  match h with
  | .last h => exact ⟨_, [], _, [], (List.append_nil _).symm, rfl, h.isExpression depth low, .none⟩
  | .more h comma others =>
    obtain ⟨low, lower⟩ := List.forall_mem_append.mp low
    obtain ⟨ts, us, first, further, same, rfl, isExpression, rest⟩ :=
      others.exists_further depth (List.forall_mem_cons.mp lower).2
    refine ⟨_, _, _, _, ?_, rfl, h.isExpression depth low, .more comma isExpression rest⟩
    rw [List.map_append, List.map_cons, same]

end

end Derived

/-! ## From levels to derivations -/

theorem Joined.within {n : Nat} {Part Whole : Marked → Expr → Prop} (le : n ≤ bound)
    (first : ∀ {row e}, Part row e → Whole row e)
    (next : ∀ {row more t op left right}, Whole row left → Token.sign? sign? t = some op →
      Part more right → Whole (row ++ (t, n) :: more) (.apply op [left, right]))
    (operands : ∀ ts e, Operand ts e → Within bound Part ts e) (h : Joined sign? Operand ts e) :
    Within bound Whole ts e := by
  induction h with
  | single h =>
    obtain ⟨row, rfl, part, low⟩ := operands _ _ h
    exact ⟨row, rfl, first part, low⟩
  | @join _ _ t _ _ _ _ sign h ih =>
    obtain ⟨row, rfl, whole, low⟩ := ih
    obtain ⟨more, rfl, part, lower⟩ := operands _ _ h
    refine ⟨row ++ (t, n) :: more, by simp, next whole sign part, ?_⟩
    exact List.forall_mem_append.mpr ⟨low, List.forall_mem_cons.mpr ⟨le, lower⟩⟩

theorem ExpressionOf.within {n : Nat} {Factor : List Token → Expr → Prop} (le : n ≤ bound)
    (factors : ∀ ts e, Factor ts e → Within bound (Derived.Factor n) ts e)
    (h : ExpressionOf Factor ts e) : Within bound (Derived.Expression n) ts e :=
  Joined.within le .first .next (fun _ _ h => Joined.within le .first .next factors h) h

theorem Further.within {n : Nat} (le : n ≤ bound)
    (arguments : ∀ ts e, Operand ts e → Within bound (Derived.Expression n) ts e)
    (isArgument : Operand ts e) (h : Further Operand us es) :
    Within bound (Derived.Arguments n) (ts ++ us) (e :: es) := by
  induction h generalizing ts e with
  | none =>
    obtain ⟨row, rfl, derived, low⟩ := arguments _ _ isArgument
    exact ⟨row, (List.append_nil _).symm, .last derived, low⟩
  | @more t _ _ _ _ comma next _ ih =>
    obtain ⟨row, rfl, derived, low⟩ := arguments _ _ isArgument
    obtain ⟨more, same, others, lower⟩ := ih next
    refine ⟨row ++ (t, n) :: more, by simp [same], .more derived comma others, ?_⟩
    exact List.forall_mem_append.mpr ⟨low, List.forall_mem_cons.mpr ⟨le, lower⟩⟩

theorem IsFactor.within : ∀ {n depth : Nat} {ts : List Token} {e : Expr}, IsFactor depth ts e →
    Within (n + depth) (Derived.Factor n) ts e
  | _, 0, _, _, h => h.elim
  | n, depth + 1, _, _, h => by
    have inner : n + (depth + 1) = n + 1 + depth := by omega
    have own : n + 1 ≤ n + 1 + depth := by omega
    have deeper ts e (h : IsExpression depth ts e) :
        Within (n + 1 + depth) (Derived.Expression (n + 1)) ts e :=
      h.within own fun _ _ => IsFactor.within
    rw [inner]
    cases h with
    | @number t _ kind => exact ⟨[(t, n + 1)], rfl, .number kind, by simp⟩
    | @reference t _ kind => exact ⟨[(t, n + 1)], rfl, .reference kind, by simp⟩
    | @negation t _ _ kind h =>
      obtain ⟨row, rfl, derived, low⟩ := h.within
      exact ⟨(t, n + 1) :: row, rfl, .negation kind derived, List.forall_mem_cons.mpr ⟨own, low⟩⟩
    | @group opening closing _ _ open_ h close =>
      obtain ⟨row, rfl, derived, low⟩ := deeper _ _ h
      refine ⟨_, ?_, .group open_ derived close, ?_⟩
      · simp
      · simpa [or_imp, forall_and, own] using low
    | @call t opening closing op ts us e es kind open_ h further close =>
      obtain ⟨row, same, derived, low⟩ := further.within own deeper h
      refine ⟨_, ?_, .call kind open_ derived close, ?_⟩
      · simp [same]
      · simpa [or_imp, forall_and, own] using low

/-- Levels to open and marks in a derivation bound the same expressions. -/
theorem isExpression_iff_within {n : Nat} :
    IsExpression depth ts e ↔ Within (n + depth) (Derived.Expression n) ts e := by
  constructor
  · intro h
    exact h.within (Nat.le_add_right n depth) fun _ _ => IsFactor.within
  · intro holds
    obtain ⟨row, rfl, derived, low⟩ := holds
    exact derived.isExpression depth low

/-! ## Readers in their row -/

/-- A reader takes at least one token off the front of its row and leaves the others to be read on,
or it refuses the row for what stands at a place of it. -/
def Stays (read : Reader) : Prop :=
  ∀ ts, (∃ us tree rest, ts = us ++ rest ∧ us ≠ [] ∧ read ts = .ok (tree, rest)) ∨
    ∃ err, read ts = .error err ∧ RefusedIn ts err

theorem Located.stays {read : Reader} {P : List Token → Expr → Prop} (located : Located read)
    (sound : Sound read P) (tokens : ∀ ts e, P ts e → ts ≠ []) : Stays read := by
  intro ts
  cases result : read ts with
  | error err => exact .inr ⟨err, rfl, located ts err result⟩
  | ok taken =>
    obtain ⟨tree, rest⟩ := taken
    obtain ⟨-, us, rfl, h⟩ := sound _ _ _ result
    exact .inl ⟨us, tree, rest, rfl, tokens _ _ h, rfl⟩

theorem stays_factor (depth : Nat) : Stays (factor depth) :=
  (located_factor depth).stays (sound_factor depth) fun ts e h => (closed_apart.factor depth ts e h).2

theorem stays_expressionOf_factor (depth : Nat) : Stays (expressionOf (factor depth)) :=
  ((located_factor depth).expressionOf (sound_factor depth)).stays (sound_factor depth).expressionOf
    fun _ _ h => (closed_apart.expression h).2

/-! ## Parsed texts -/

/-- **Parsing.** A text is parsed as a tree if and only if it is scanned into tokens that derive the
tree with none of them in more than `maxDepth` factors, and the tree is not too high. No reader
leaves its row: it takes tokens off the front or stops at a place of the row, and so every row of
tokens is parsed or refused for what stands in it. -/
theorem parse_eq_ok_iff_derived (base : Position) (text : String) :
    (∀ tree, parse base text = .ok tree ↔ ∃ ts, Token.scan base text = .ok ts ∧
      Within maxDepth (Derived.Expression 0) ts tree ∧ tree.height ≤ maxDepth) ∧
    (∀ depth, Stays (factor depth) ∧ Stays (expressionOf (factor depth))) ∧
    ∀ ts, (∃ tree, ofTokens ts = .ok tree) ∨ ∃ err, ofTokens ts = .error err ∧
      (RefusedIn ts err ∨ ∃ before t after, ts = before ++ t :: after ∧ err = .trailing t.text) := by
  refine ⟨fun tree => ?_, fun depth => ⟨stays_factor depth, stays_expressionOf_factor depth⟩,
    fun ts => ?_⟩
  · have levels ts : IsExpression maxDepth ts tree ↔
        Within maxDepth (Derived.Expression 0) ts tree := by
      rw [isExpression_iff_within (n := 0), Nat.zero_add]
    rw [parse_eq_ok_iff]
    simp only [levels]
  · cases result : ofTokens ts with
    | ok tree => exact .inl ⟨tree, rfl⟩
    | error err => exact .inr ⟨err, rfl, ofTokens_located result⟩

end Worksheet.Expr
