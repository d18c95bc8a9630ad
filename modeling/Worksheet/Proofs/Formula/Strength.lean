import Worksheet.Proofs.Formula.Grammar

/-!
# How strongly the text of an operation stands

A text that is made from a tree is an expression; the stronger it holds together the more it is: a
product, or a factor. In this it has no more open factors than the tree is high, and a text that is
not strong enough to be a factor leaves one of them for parentheses. So parentheses around such an
operand never open more factors than the operand is high, and the bound goes through every
operation.

Results:
* `Stands.group`: what parentheses make of a text.
* `Stands.negation`, `stands_sum`, `stands_product`, `stands_call`: the texts of operations.
-/
namespace Worksheet.Expr

variable {ts us : List Token} {t opening closing : Token} {e left right : Expr} {es : List Expr}
  {op : Op} {k m depth : Nat}

theorem IsExpression.mono {depth' : Nat} (le : depth ≤ depth') (h : IsExpression depth ts e) :
    IsExpression depth' ts e :=
  Joined.mono (fun _ _ h => Joined.mono (fun _ _ h => IsFactor.mono le h) h) h

/-- What the tokens of a text of strength `k` are, with no more open factors than the tree is high.
A text that is no single operand leaves one factor, for parentheses. -/
structure Stands (k : Nat) (ts : List Token) (e : Expr) : Prop where
  expression : IsExpression e.height ts e
  term : Op.add.strength < k → TermOf (IsFactor e.height) ts e
  factor : Op.mul.strength < k → IsFactor e.height ts e
  inner : k < Op.strongest → ∃ depth, e.height = depth + 1 ∧ IsExpression depth ts e

theorem stands_of_factor (h : IsFactor e.height ts e) : Stands Op.strongest ts e where
  expression := .single (.single h)
  term _ := .single h
  factor _ := h
  inner less := absurd less (Nat.lt_irrefl _)

theorem exists_height_eq (e : Expr) : ∃ depth, e.height = depth + 1 :=
  ⟨e.height - 1, (Nat.sub_add_cancel e.height_pos).symm⟩

theorem Stands.group (h : Stands k ts e) (less : k < Op.strongest) (open_ : opening.kind = .mark '(')
    (close : closing.kind = .mark ')') : Stands Op.strongest (opening :: (ts ++ [closing])) e := by
  obtain ⟨depth, high, inner⟩ := h.inner less
  refine stands_of_factor ?_
  rw [high]
  exact .group open_ inner close

theorem Stands.negation (h : Stands k ts e) (single : Op.mul.strength < k)
    (kind : t.kind = .mark '-') : Stands Op.strongest (t :: ts) (.apply .sub [e]) := by
  obtain ⟨depth, high⟩ := exists_height_eq (.apply .sub [e])
  refine stands_of_factor ?_
  rw [high]
  exact .negation kind ((h.factor single).mono (height_apply_le_iff.mp high.le e List.mem_cons_self))

theorem stands_sum (hk : Op.add.strength = op.strength) (sign : t.sign? Op.ofSumSign? = some op)
    (hl : Stands k ts left) (hr : Stands m us right) (lt : op.strength < m) :
    Stands op.strength (ts ++ t :: us) (.apply op [left, right]) := by
  obtain ⟨depth, high⟩ := exists_height_eq (.apply op [left, right])
  have low := height_apply_le_iff.mp high.le
  have row : IsExpression depth (ts ++ t :: us) (.apply op [left, right]) := by
    refine .join (hl.expression.mono (low left (by simp))) sign ?_
    exact (hr.term (hk ▸ lt)).mono fun _ _ h => h.mono (low right (by simp))
  refine ⟨row.mono (by omega), fun more => ?_, fun more => ?_, fun _ => ⟨depth, high, row⟩⟩
  · exact absurd more (by omega)
  · exact absurd more (by rw [← hk]; decide)

theorem stands_product (hk : Op.mul.strength = op.strength)
    (sign : t.sign? Op.ofProductSign? = some op) (hl : Stands k ts left) (hr : Stands m us right)
    (le : op.strength ≤ k) (lt : op.strength < m) :
    Stands op.strength (ts ++ t :: us) (.apply op [left, right]) := by
  obtain ⟨depth, high⟩ := exists_height_eq (.apply op [left, right])
  have low := height_apply_le_iff.mp high.le
  have sum : Op.add.strength < k := Nat.lt_of_lt_of_le (by rw [← hk]; decide) le
  have row : TermOf (IsFactor depth) (ts ++ t :: us) (.apply op [left, right]) := by
    refine .join ((hl.term sum).mono fun _ _ h => h.mono (low left (by simp))) sign ?_
    exact (hr.factor (hk ▸ lt)).mono (low right (by simp))
  have higher : TermOf (IsFactor (apply op [left, right]).height) (ts ++ t :: us)
      (.apply op [left, right]) := row.mono fun _ _ h => h.mono (by omega)
  exact ⟨.single higher, fun _ => higher, fun more => absurd more (by omega),
    fun _ => ⟨depth, high, .single row⟩⟩

theorem stands_call (kind : t.kind = .function op) (open_ : opening.kind = .mark '(')
    (first : IsExpression depth ts e) (others : Further (IsExpression depth) us es)
    (close : closing.kind = .mark ')') (high : (apply op (e :: es)).height = depth + 1) :
    Stands Op.strongest (t :: opening :: (ts ++ (us ++ [closing]))) (.apply op (e :: es)) := by
  refine stands_of_factor ?_
  rw [high]
  exact .call kind open_ first others close

end Worksheet.Expr
