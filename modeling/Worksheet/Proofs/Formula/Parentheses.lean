import Worksheet.Proofs.Formula.RoundTrip

/-!
# The fewest parentheses

A tree is written with parentheses around an operand only where the operand binds less than its
place asks (`needed`). A text that is parsed as the tree cannot do without them either. What stands
at a place that asks for a factor is a factor of the grammar, and an operation that binds less is a
factor in parentheses only; what stands at a place that asks for less may be wrapped as well, but
need not be. So the parentheses of any text can be counted off against those that are written, along
the derivation of its tokens (`Covers`).

Results:
* `count_of_scan`: the parentheses of a text are those of its tokens.
* `Joined.covers`, `covers_factor`: every row that the grammar derives has the parentheses that its
  tree needs.
* `fewest_parentheses`: no text that is parsed as a tree has fewer parentheses than the tree's own.
-/
namespace Worksheet

/-! ## Parentheses of lexemes and tokens -/

namespace Lexeme

variable {base : Position} {l : Lexeme} {ls : List Lexeme} {ts : List Token} {cs : List Char}

theorem Whole.count_eq_zero (h : l.Whole) (other : l ≠ mark '(') : l.text.count '(' = 0 := by
  rw [List.count_eq_zero]
  intro mem
  cases l with
  | numeral n =>
    rcases h.mem_text mem with digit | other
    · exact absurd digit (by decide)
    · exact absurd other (by decide)
  | word cs => exact absurd (h.2 '(' mem) (by decide)
  | mark c => exact other (congrArg mark (List.mem_singleton.mp mem).symm)
  | stray c =>
    obtain rfl := List.mem_singleton.mp mem
    exact h.2.2 (by decide)

theorem Whole.count_text (h : l.Whole) : l.text.count '(' = if l = mark '(' then 1 else 0 := by
  split
  · next same => rw [same]; rfl
  · next other => exact h.count_eq_zero other

theorem Consists.count_eq (h : Consists cs ls) : cs.count '(' = ls.count (mark '(') := by
  induction h with
  | nil => rfl
  | blank blank _ ih =>
    rw [List.count_cons_of_ne, ih]
    rintro rfl
    exact absurd blank (by decide)
  | lexeme whole _ ih =>
    rw [List.count_append, whole.count_text, ih, List.count_cons, Nat.add_comm]
    simp only [beq_iff_eq]

theorem isMark_of_sense? {t : Token} {c : Char} (h : l.sense? base = some t) :
    t.isMark c = true ↔ l = mark c := by
  rw [Expr.isMark_iff]
  constructor
  · exact eq_mark_of_kind h
  · rintro rfl
    cases h
    rfl

theorem count_mark_eq (sense : ls.map (sense? base) = ts.map some) :
    ls.count (mark '(') = ts.countP (Token.isMark '(') := by
  induction ls generalizing ts with
  | nil =>
    rw [List.map_eq_nil_iff.mp sense.symm]
    rfl
  | cons l ls ih =>
    obtain ⟨t, us, rfl, first, others⟩ := List.map_eq_cons_iff.mp sense.symm
    rw [List.count_cons, List.countP_cons, ih others.symm]
    simp only [beq_iff_eq, isMark_of_sense? first.symm]

theorem count_of_scan {text : String} (h : Token.scan base text = .ok ts) :
    text.toList.count '(' = ts.countP (Token.isMark '(') := by
  obtain ⟨ls, consists, sense⟩ := exists_lexemes_of_scan h
  exact consists.count_eq.trans (count_mark_eq sense)

end Lexeme

namespace Expr

variable {sign? : Char → Option Op} {Operand Factor : List Token → Expr → Prop} {base : Position}
  {text : String} {tree e left right : Expr} {es : List Expr} {op : Op} {k m : Nat}
  {ts us : List Token} {t : Token}

/-! ## Parentheses of trees -/

/-- The parentheses of a tree at a place that asks for the strength `k`, its own included. -/
def needed (base : Position) (k : Nat) (e : Expr) : Nat :=
  ((e.written base).within ((e.written base).strength < k)).toList.count '('

theorem count_within (w : Written) (wrap : Bool) :
    (w.within wrap).toList.count '(' = w.text.toList.count '(' + if wrap then 1 else 0 := by
  unfold Written.within
  split
  · simp [List.count_append, Nat.add_comm]
  · rfl

theorem needed_eq : needed base k e =
    (e.text base).toList.count '(' + if (e.written base).strength < k then 1 else 0 := by
  rw [needed, count_within, text]
  simp only [decide_eq_true_eq]

theorem count_text_le_needed (base : Position) (k : Nat) (e : Expr) :
    (e.text base).toList.count '(' ≤ needed base k e := by
  rw [needed_eq]
  exact Nat.le_add_right _ _

theorem needed_le_succ (base : Position) (k : Nat) (e : Expr) :
    needed base k e ≤ (e.text base).toList.count '(' + 1 := by
  rw [needed_eq]
  split <;> omega

theorem needed_of_le (enough : k ≤ (e.written base).strength) :
    needed base k e = (e.text base).toList.count '(' := by
  rw [needed_eq, if_neg (Nat.not_lt.mpr enough), Nat.add_zero]

/-- A place that asks for more needs no fewer. -/
theorem needed_mono (le : k ≤ m) : needed base k e ≤ needed base m e := by
  rw [needed_eq, needed_eq]
  split
  · next less => rw [if_pos (Nat.lt_of_lt_of_le less le)]
  · omega

theorem strength_written (e : Expr) : (e.written base).strength = Op.add.strength ∨
    (e.written base).strength = Op.mul.strength ∨ (e.written base).strength = Op.strongest := by
  have each (op : Op) : op.strength = Op.add.strength ∨ op.strength = Op.mul.strength ∨
      op.strength = Op.strongest := by
    cases op <;> decide
  cases e with
  | number x => exact .inr (.inr rfl)
  | reference r => exact .inr (.inr rfl)
  | apply op es =>
    rw [written_apply]
    unfold Written.operation
    split
    · split
      · exact .inr (.inr rfl)
      · exact each op
    · split <;> exact each op
    · exact each op

theorem needed_leaf {l : Lexeme} (whole : l.Whole) (other : l ≠ .mark '(')
    (same : l.text = (e.text base).toList) (single : (e.written base).strength = Op.strongest) :
    needed base Op.strongest e = 0 := by
  rw [needed_of_le single.ge, ← same, whole.count_eq_zero other]

theorem needed_number (d : Decimal) : needed base Op.strongest (.number d.toFloat) = 0 := by
  obtain ⟨n, wellFormed, same, -⟩ := d.exists_numeral
  exact needed_leaf (l := .numeral n) wellFormed nofun same rfl

theorem needed_reference {r : Reference} (leads : (r.resolve? base).isSome) :
    needed base Op.strongest (.reference r) = 0 := by
  obtain ⟨p, leads⟩ := Option.isSome_iff_exists.mp leads
  have whole := whole_chars (a := r.address p) (Reference.onGrid_of_resolve? leads)
  refine needed_leaf whole nofun ?_ rfl
  show (r.address p).chars = (r.text base).toList
  rw [Reference.text_eq leads, String.toList_ofList]

theorem needed_negation : needed base Op.strongest (.apply .sub [e]) = needed base Op.strongest e := by
  have written : (Expr.apply .sub [e]).written base =
      .single ("-" ++ (e.written base).within ((e.written base).strength < Op.strongest)) :=
    written_apply ..
  have strength : ((Expr.apply .sub [e]).written base).strength = Op.strongest := by
    rw [written, Written.single]
  rw [needed_of_le strength.ge, text, written, Written.single, String.toList_append,
    List.count_append]
  exact Nat.zero_add _

/-- An operation is as strong as its sign, and its operands need what their places ask for. -/
theorem needed_operation (function : op.isFunction = false)
    (next : ∀ e : Expr, (e.written base).strength ≤ op.strength ↔ (e.written base).strength < m) :
    needed base op.strength (.apply op [left, right]) =
      needed base op.strength left + needed base m right := by
  have written : (Expr.apply op [left, right]).written base =
      ⟨(left.written base).within ((left.written base).strength < op.strength) ++ op.symbol ++
        (right.written base).within ((right.written base).strength ≤ op.strength), op.strength⟩ := by
    rw [written_apply]
    exact if_neg (by simp [function])
  have symbol : op.symbol.toList.count '(' = 0 := by cases op <;> rfl
  have strength : ((Expr.apply op [left, right]).written base).strength = op.strength := by
    rw [written]
  rw [needed_of_le strength.ge, text, written, String.toList_append, String.toList_append,
    List.count_append, List.count_append, symbol, needed, needed]
  simp only [next, Nat.add_zero]

theorem needed_call (function : op.isFunction = true) :
    needed base Op.strongest (.apply op (e :: es)) =
      1 + (e.text base).toList.count '(' + (furtherText base es).count '(' := by
  obtain ⟨-, strong, -⟩ := exists_name base function
  have written : (Expr.apply op (e :: es)).written base =
      ⟨Written.call op ((e :: es).map (Expr.written base)), op.strength⟩ := by
    rw [written_apply, operation_eq_call function]
  have symbol : op.symbol.toList.count '(' = 0 := by cases op <;> rfl
  have strength : ((Expr.apply op (e :: es)).written base).strength = Op.strongest := by
    rw [written, strong]
  rw [needed_of_le strength.ge, text, written, toList_call, List.count_append, symbol,
    List.count_cons_self, List.count_append, List.count_append]
  have close : [')'].count '(' = 0 := rfl
  omega

/-! ## Parentheses of rows -/

/-- Tokens that a text can have hold as many opening parentheses as the tree needs at a place that
asks for the strength `k`. -/
def Covers (base : Position) (k : Nat) (ts : List Token) (e : Expr) : Prop :=
  (∀ t ∈ ts, t.Grounded base) → needed base k e ≤ ts.countP (Token.isMark '(')

theorem Covers.mono (le : k ≤ m) (h : Covers base m ts e) : Covers base k ts e :=
  fun grounded => Nat.le_trans (needed_mono le) (h grounded)

/-- A row of operations covers its tree, if its last operand must bind more than its signs. -/
theorem Joined.covers (le : k ≤ m)
    (signs : ∀ t op, Token.sign? sign? t = some op → op.isFunction = false ∧ op.strength = k)
    (next : ∀ e : Expr, (e.written base).strength ≤ k ↔ (e.written base).strength < m)
    (operands : ∀ ts e, Operand ts e → Covers base m ts e) (h : Joined sign? Operand ts e) :
    Covers base k ts e := by
  induction h with
  | single h => exact (operands _ _ h).mono le
  | @join ts us t op left right _ sign h ih =>
    intro grounded
    obtain ⟨function, rfl⟩ := signs t op sign
    have first := ih fun t ht => grounded t (by simp [ht])
    have last := operands _ _ h fun t ht => grounded t (by simp [ht])
    rw [needed_operation function next, List.countP_append, List.countP_cons]
    omega

theorem strength_of_sumSign (h : t.sign? Op.ofSumSign? = some op) :
    op.isFunction = false ∧ op.strength = Op.add.strength := by
  unfold Token.sign? at h
  split at h
  · unfold Op.ofSumSign? at h
    split at h <;> cases h <;> exact ⟨rfl, rfl⟩
  · cases h

theorem strength_of_productSign (h : t.sign? Op.ofProductSign? = some op) :
    op.isFunction = false ∧ op.strength = Op.mul.strength := by
  unfold Token.sign? at h
  split at h
  · unfold Op.ofProductSign? at h
    split at h <;> cases h <;> exact ⟨rfl, rfl⟩
  · cases h

/-- Sums need no parentheses where an expression may stand, and products none where a term may. -/
theorem ExpressionOf.covers (factors : ∀ ts e, Factor ts e → Covers base Op.strongest ts e)
    (h : ExpressionOf Factor ts e) : Covers base Op.add.strength ts e := by
  have product (e : Expr) : (e.written base).strength ≤ Op.mul.strength ↔
      (e.written base).strength < Op.strongest := by
    rcases strength_written e with same | same | same <;> rw [same] <;> decide
  have sum (e : Expr) : (e.written base).strength ≤ Op.add.strength ↔
      (e.written base).strength < Op.mul.strength := by
    rcases strength_written e with same | same | same <;> rw [same] <;> decide
  have terms ts e (h : TermOf Factor ts e) : Covers base Op.mul.strength ts e :=
    Joined.covers (by decide) (fun _ _ => strength_of_productSign) product factors h
  exact Joined.covers (by decide) (fun _ _ => strength_of_sumSign) sum terms h

theorem Further.covers (arguments : ∀ ts e, Operand ts e → Covers base k ts e)
    (h : Further Operand ts es) (grounded : ∀ t ∈ ts, t.Grounded base) :
    (furtherText base es).count '(' ≤ ts.countP (Token.isMark '(') := by
  induction h with
  | none => exact Nat.le_refl 0
  | @more t ts us e es comma h _ ih =>
    have first := arguments _ _ h fun t ht => grounded t (by simp [ht])
    have others := ih fun t ht => grounded t (by simp [ht])
    have text := count_text_le_needed base k e
    rw [furtherText, List.flatMap_cons, ← furtherText, List.countP_cons, List.countP_append]
    rw [List.cons_append, List.cons_append, List.count_cons_of_ne (by decide),
      List.count_cons_of_ne (by decide), List.count_append]
    omega

theorem covers_factor : ∀ depth ts e, IsFactor depth ts e → Covers base Op.strongest ts e
  | 0, _, _, h => h.elim
  | depth + 1, _, tree, h => by
    have inner ts e (h : IsExpression depth ts e) : Covers base Op.add.strength ts e :=
      ExpressionOf.covers (covers_factor depth) h
    intro grounded
    cases h with
    | @number t x kind =>
      have value := grounded t List.mem_cons_self
      rw [Token.Grounded, kind] at value
      obtain ⟨d, rfl⟩ := value
      rw [needed_number]
      exact Nat.zero_le _
    | @reference t r kind =>
      have leads := grounded t List.mem_cons_self
      rw [Token.Grounded, kind] at leads
      rw [needed_reference leads]
      exact Nat.zero_le _
    | @negation t ts e kind h =>
      rw [needed_negation, List.countP_cons]
      have operand := covers_factor depth _ _ h fun t ht => grounded t (by simp [ht])
      omega
    | @group opening closing ts _ open_ h close =>
      have inside := inner _ _ h fun t ht => grounded t (by simp [ht])
      have wrapped := needed_le_succ base Op.strongest tree
      have text := count_text_le_needed base Op.add.strength tree
      rw [List.countP_cons_of_pos (isMark_iff.mpr open_), List.countP_append]
      omega
    | @call t opening closing op ts us e es kind open_ h further close =>
      have name := grounded t List.mem_cons_self
      rw [Token.Grounded, kind] at name
      have first := inner _ _ h fun t ht => grounded t (by simp [ht])
      have text := count_text_le_needed base Op.add.strength e
      have others := further.covers inner fun t ht => grounded t (by simp [ht])
      rw [needed_call name, List.countP_cons, List.countP_cons_of_pos (isMark_iff.mpr open_),
        List.countP_append, List.countP_append]
      omega

/-! ## Texts -/

/-- **Fewest parentheses.** The text of the tree of a parsed text is parsed as the tree again, and
no text that is parsed as the tree has fewer parentheses. -/
theorem fewest_parentheses (h : parse base text = .ok tree) :
    parse base (tree.text base) = .ok tree ∧
      ∀ other, parse base other = .ok tree →
        (tree.text base).toList.count '(' ≤ other.toList.count '(' := by
  refine ⟨parse_text_resolved h (formed_of_parse h).resolves, fun other parsed => ?_⟩
  obtain ⟨ts, scanned, isExpression, -⟩ := parse_eq_ok_iff.mp parsed
  rw [Lexeme.count_of_scan scanned]
  refine Nat.le_trans (count_text_le_needed base Op.add.strength tree) ?_
  exact ExpressionOf.covers (covers_factor maxDepth) isExpression (grounded_of_scan scanned)

/-- A text with more parentheses than its tree needs. -/
theorem fewest_parentheses_quotient : ∃ tree,
    parse ⟨0, 0⟩ "((a2) + (1 * 2)) / (b2 / (-max((3), 4)))" = .ok tree ∧
      tree.text ⟨0, 0⟩ = "(a2+1*2)/(b2/-max(3, 4))" ∧
      parse ⟨0, 0⟩ (tree.text ⟨0, 0⟩) = .ok tree ∧
      ∀ other, parse ⟨0, 0⟩ other = .ok tree → 3 ≤ other.toList.count '(' := by
  have written : ((parse ⟨0, 0⟩ "((a2) + (1 * 2)) / (b2 / (-max((3), 4)))").toOption.any fun tree =>
      tree.text ⟨0, 0⟩ = "(a2+1*2)/(b2/-max(3, 4))") = true := by decide +kernel
  cases parsed : parse ⟨0, 0⟩ "((a2) + (1 * 2)) / (b2 / (-max((3), 4)))" with
  | error e => rw [parsed] at written; cases written
  | ok tree =>
    rw [parsed] at written
    have text : tree.text ⟨0, 0⟩ = "(a2+1*2)/(b2/-max(3, 4))" := of_decide_eq_true written
    obtain ⟨again, fewest⟩ := fewest_parentheses parsed
    refine ⟨tree, rfl, text, again, fun other same => ?_⟩
    have three : (tree.text ⟨0, 0⟩).toList.count '(' = 3 := by rw [text]; decide +kernel
    exact three ▸ fewest other same

end Expr

end Worksheet
