import Mathlib.Data.List.Chain
import Worksheet.Formula.Parse

/-!
# The grammar of expressions

Which rows of tokens are expressions, and of which tree, said without the reader: rows of operations
taken from the left (`Joined`), lists of arguments (`Further`), and factors made of factors that
have one level less to open (`FactorOf`, `IsFactor`). The reader takes off exactly such rows.

Results:
* `height_apply_le_iff`: an operation is one level higher than its highest operand.
* `IsFactor.mono`: what is a factor of some depth is one of any greater depth.
* `Closed.expression`: what goes through every rule of the grammar holds of every expression.
-/
namespace Worksheet.Expr

variable {sign? : Char → Option Op} {Operand Operand' Factor : List Token → Expr → Prop}
  {operand read : Reader} {ts us rest : List Token} {t : Token} {e left right : Expr}
  {es : List Expr} {op : Op} {depth : Nat}

/-! ## Heights -/

theorem height_apply (op : Op) (es : List Expr) :
    (apply op es).height = 1 + (es.map height).foldl max 0 := by
  rw [height, fold_apply]

theorem foldl_max_le_iff {ns : List Nat} {start n : Nat} :
    ns.foldl max start ≤ n ↔ start ≤ n ∧ ∀ m ∈ ns, m ≤ n := by
  induction ns generalizing start with
  | nil => simp
  | cons m ns ih =>
    rw [List.foldl_cons, ih, List.forall_mem_cons, Nat.max_le, and_assoc]

theorem height_apply_le_iff {n : Nat} :
    (apply op es).height ≤ n + 1 ↔ ∀ e ∈ es, e.height ≤ n := by
  rw [height_apply, Nat.add_comm, Nat.add_le_add_iff_right, foldl_max_le_iff]
  simp

theorem height_pos (e : Expr) : 0 < e.height := by
  cases e with
  | number x => exact Nat.one_pos
  | reference r => exact Nat.one_pos
  | apply op es => rw [height_apply]; omega

/-! ## The rules -/

/-- A row of operations on operands, taken from the left. -/
inductive Joined (sign? : Char → Option Op) (Operand : List Token → Expr → Prop) :
    List Token → Expr → Prop
  | single {ts : List Token} {e : Expr} : Operand ts e → Joined sign? Operand ts e
  | join {ts us : List Token} {t : Token} {op : Op} {left right : Expr} :
      Joined sign? Operand ts left → t.sign? sign? = some op → Operand us right →
      Joined sign? Operand (ts ++ t :: us) (.apply op [left, right])

abbrev TermOf (Factor : List Token → Expr → Prop) : List Token → Expr → Prop :=
  Joined Op.ofProductSign? Factor

abbrev ExpressionOf (Factor : List Token → Expr → Prop) : List Token → Expr → Prop :=
  Joined Op.ofSumSign? (TermOf Factor)

/-- The arguments after the first, each after a comma. -/
inductive Further (Argument : List Token → Expr → Prop) : List Token → List Expr → Prop
  | none : Further Argument [] []
  | more {t : Token} {ts us : List Token} {e : Expr} {es : List Expr} :
      t.kind = .mark ',' → Argument ts e → Further Argument us es →
      Further Argument (t :: (ts ++ us)) (e :: es)

/-- A factor, whose own factors are given. -/
inductive FactorOf (Factor : List Token → Expr → Prop) : List Token → Expr → Prop
  | number {t : Token} {x : Float} : t.kind = .number x → FactorOf Factor [t] (.number x)
  | reference {t : Token} {r : Reference} :
      t.kind = .reference r → FactorOf Factor [t] (.reference r)
  | negation {t : Token} {ts : List Token} {e : Expr} : t.kind = .mark '-' → Factor ts e →
      FactorOf Factor (t :: ts) (.apply .sub [e])
  | group {opening closing : Token} {ts : List Token} {e : Expr} :
      opening.kind = .mark '(' → ExpressionOf Factor ts e → closing.kind = .mark ')' →
      FactorOf Factor (opening :: (ts ++ [closing])) e
  | call {t opening closing : Token} {op : Op} {ts us : List Token} {e : Expr} {es : List Expr} :
      t.kind = .function op → opening.kind = .mark '(' →
      ExpressionOf Factor ts e → Further (ExpressionOf Factor) us es →
      closing.kind = .mark ')' →
      FactorOf Factor (t :: opening :: (ts ++ (us ++ [closing]))) (.apply op (e :: es))

/-- Factors of which no more than `depth` are open at once. -/
def IsFactor : (depth : Nat) → List Token → Expr → Prop
  | 0 => fun _ _ => False
  | depth + 1 => FactorOf (IsFactor depth)

/-- Expressions with no more than `depth` open factors. -/
abbrev IsExpression (depth : Nat) : List Token → Expr → Prop := ExpressionOf (IsFactor depth)

/-! ## More depth -/

theorem Joined.mono (sub : ∀ ts e, Operand ts e → Operand' ts e) (h : Joined sign? Operand ts e) :
    Joined sign? Operand' ts e := by
  induction h with
  | single h => exact .single (sub _ _ h)
  | join _ sign h ih => exact .join ih sign (sub _ _ h)

theorem Further.mono (sub : ∀ ts e, Operand ts e → Operand' ts e) (h : Further Operand ts es) :
    Further Operand' ts es := by
  induction h with
  | none => exact .none
  | more comma h _ ih => exact .more comma (sub _ _ h) ih

theorem IsFactor.succ (h : IsFactor depth ts e) : IsFactor (depth + 1) ts e := by
  induction depth generalizing ts e with
  | zero => exact h.elim
  | succ depth ih =>
    have deeper ts e (h : IsExpression depth ts e) : IsExpression (depth + 1) ts e :=
      h.mono fun _ _ h => h.mono fun _ _ => ih
    cases h with
    | number kind => exact .number kind
    | reference kind => exact .reference kind
    | negation kind h => exact .negation kind (ih h)
    | group opening h closing => exact .group opening (deeper _ _ h) closing
    | call kind opening h further closing =>
      exact .call kind opening (deeper _ _ h) (further.mono deeper) closing

theorem IsFactor.mono {depth' : Nat} (le : depth ≤ depth') (h : IsFactor depth ts e) :
    IsFactor depth' ts e := by
  induction le with
  | refl => exact h
  | step _ ih => exact ih.succ

/-! ## What holds of every expression -/

/-- A property of rows and their trees, and one of lists of arguments, that go through every rule.
-/
structure Closed (P : List Token → Expr → Prop) (Q : List Token → List Expr → Prop) : Prop where
  number : ∀ {t x}, t.kind = .number x → P [t] (.number x)
  reference : ∀ {t r}, t.kind = .reference r → P [t] (.reference r)
  negation : ∀ {t ts e}, t.kind = .mark '-' → P ts e → P (t :: ts) (.apply .sub [e])
  group : ∀ {opening closing ts e}, opening.kind = .mark '(' → P ts e →
    closing.kind = .mark ')' → P (opening :: (ts ++ [closing])) e
  call : ∀ {t opening closing op ts us e es}, t.kind = .function op → opening.kind = .mark '(' →
    P ts e → Q us es → closing.kind = .mark ')' →
    P (t :: opening :: (ts ++ (us ++ [closing]))) (.apply op (e :: es))
  join : ∀ {ts us t op left right}, P ts left →
    t.sign? Op.ofSumSign? = some op ∨ t.sign? Op.ofProductSign? = some op → P us right →
    P (ts ++ t :: us) (.apply op [left, right])
  none : Q [] []
  more : ∀ {t ts us e es}, t.kind = .mark ',' → P ts e → Q us es → Q (t :: (ts ++ us)) (e :: es)

namespace Closed

variable {P : List Token → Expr → Prop} {Q : List Token → List Expr → Prop}

theorem joined (closed : Closed P Q) (sub : ∀ ts e, Operand ts e → P ts e)
    (signs : ∀ t op, Token.sign? sign? t = some op →
      t.sign? Op.ofSumSign? = some op ∨ t.sign? Op.ofProductSign? = some op)
    (h : Joined sign? Operand ts e) : P ts e := by
  induction h with
  | single h => exact sub _ _ h
  | join _ sign h ih => exact closed.join ih (signs _ _ sign) (sub _ _ h)

theorem further (closed : Closed P Q) (sub : ∀ ts e, Operand ts e → P ts e)
    (h : Further Operand ts es) : Q ts es := by
  induction h with
  | none => exact closed.none
  | more comma h _ ih => exact closed.more comma (sub _ _ h) ih

theorem expressionOf (closed : Closed P Q) (sub : ∀ ts e, Factor ts e → P ts e) :
    ∀ ts e, ExpressionOf Factor ts e → P ts e :=
  fun _ _ h => closed.joined (fun _ _ h => closed.joined sub (fun _ _ => .inr) h)
    (fun _ _ => .inl) h

theorem factor (closed : Closed P Q) : ∀ depth ts e, IsFactor depth ts e → P ts e
  | 0, _, _, h => h.elim
  | depth + 1, _, _, h => by
    have inner := closed.expressionOf (closed.factor depth)
    cases h with
    | number kind => exact closed.number kind
    | reference kind => exact closed.reference kind
    | negation kind h => exact closed.negation kind (closed.factor depth _ _ h)
    | group opening h closing => exact closed.group opening (inner _ _ h) closing
    | call kind opening h further closing =>
      exact closed.call kind opening (inner _ _ h) (closed.further inner further) closing

theorem expression (closed : Closed P Q) (h : IsExpression depth ts e) : P ts e :=
  closed.expressionOf (closed.factor depth) ts e h

end Closed

end Worksheet.Expr
