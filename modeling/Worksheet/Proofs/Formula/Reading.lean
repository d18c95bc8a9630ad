import Worksheet.Proofs.Formula.Grammar

/-!
# What the reader takes off a row of tokens

A reader is sound for a kind of row if what it takes off is such a row and its tree is not too high.
It is complete if it takes off every such row of a tree that is not too high, provided that the
tokens after the row may stand there. Both go from an operand to rows of operations on it and from
the factors of one depth to those of the next. Of the rows that need more levels than there are, or
whose trees are too high, the same argument says that they are refused for nothing else (`Answers`).

Results:
* `sound_factor`, `answers_factor`: factors of any depth.
* `complete_expression`: expressions with so many open factors as the reader allows.
* `ofTokens_eq_ok_iff`: a row of tokens is read as a tree if and only if it is an expression of it
  and the tree is not too high.
-/
namespace Worksheet.Expr

variable {sign? : Char → Option Op} {Operand Factor : List Token → Expr → Prop}
  {operand factor argument : Reader} {ts before rest : List Token} {t : Token} {e left : Expr}
  {es done : List Expr} {op : Op} {depth : Nat}

theorem bind_eq_ok_iff {ε α β : Type} {x : Except ε α} {f : α → Except ε β} {b : β} :
    (x >>= f) = .ok b ↔ ∃ a, x = .ok a ∧ f a = .ok b := by
  cases x with
  | error e => exact ⟨nofun, fun ⟨_, h, _⟩ => nomatch h⟩
  | ok a => exact ⟨fun h => ⟨a, rfl, h⟩, fun ⟨_, h, h'⟩ => by cases h; exact h'⟩

theorem isMark_iff {c : Char} : t.isMark c = true ↔ t.kind = .mark c := by
  rw [Token.isMark, decide_eq_true_eq]

theorem takeMark_eq_ok_iff {c : Char} :
    takeMark c ts = .ok rest ↔ ∃ t, ts = t :: rest ∧ t.kind = .mark c := by
  unfold takeMark
  split
  · constructor
    · intro holds
      cases holds
    · intro holds
      obtain ⟨_, ⟨⟩, _⟩ := holds
  · next t us =>
    split
    · next mark =>
      constructor
      · intro holds
        cases holds
        exact ⟨t, rfl, isMark_iff.mp mark⟩
      · intro holds
        obtain ⟨_, ⟨⟩, _⟩ := holds
        rfl
    · next other =>
      constructor
      · intro holds
        cases holds
      · intro holds
        obtain ⟨_, ⟨⟩, mark⟩ := holds
        exact absurd (isMark_iff.mpr mark) other

theorem build_eq_ok_iff :
    build op es = .ok e ↔ (apply op es).height ≤ maxDepth ∧ e = apply op es := by
  unfold build
  split
  · next low => exact ⟨fun h => by cases h; exact ⟨low, rfl⟩, fun h => by rw [h.2]⟩
  · next high => exact ⟨nofun, fun h => absurd h.1 high⟩

/-! ## Soundness -/

/-- What is taken off is a row of the given kind, and its tree is not too high. -/
def Sound (read : Reader) (P : List Token → Expr → Prop) : Prop :=
  ∀ ts e rest, read ts = .ok (e, rest) →
    e.height ≤ maxDepth ∧ ∃ us, ts = us ++ rest ∧ P us e

theorem Sound.chainFrom (sound : Sound operand Operand) (low : left.height ≤ maxDepth)
    (joined : Joined sign? Operand before left)
    (h : chainFrom sign? operand left ts = .ok (e, rest)) :
    e.height ≤ maxDepth ∧ ∃ us, ts = us ++ rest ∧ Joined sign? Operand (before ++ us) e := by
  fun_induction Expr.chainFrom sign? operand left ts generalizing before with
  | case1 left =>
    cases h
    exact ⟨low, [], rfl, by rwa [List.append_nil]⟩
  | case2 left t ts unsigned =>
    cases h
    exact ⟨low, [], rfl, by rwa [List.append_nil]⟩
  | case3 => cases h
  | case4 => cases h
  | case5 left t ts op signed right after found tree built shorter ih =>
    obtain ⟨-, us, rfl, isOperand⟩ := sound _ _ _ found
    obtain ⟨lower, rfl⟩ := build_eq_ok_iff.mp built
    obtain ⟨low, vs, rfl, joined⟩ := ih lower (joined.join signed isOperand) h
    exact ⟨low, t :: us ++ vs, by simp, by simpa using joined⟩
  | case6 left t ts op signed right after found tree built longer =>
    obtain ⟨-, us, rfl, isOperand⟩ := sound _ _ _ found
    rw [List.length_append] at longer
    omega

theorem Sound.chain (sound : Sound operand Operand) :
    Sound (chain sign? operand) (Joined sign? Operand) := by
  intro ts e rest h
  unfold Expr.chain at h
  split at h
  · cases h
  · next left after found =>
    obtain ⟨low, us, rfl, isOperand⟩ := sound _ _ _ found
    obtain ⟨low, vs, rfl, joined⟩ := Sound.chainFrom sound low (.single isOperand) h
    exact ⟨low, us ++ vs, by rw [List.append_assoc], joined⟩

theorem Sound.expressionOf (sound : Sound factor Factor) :
    Sound (expressionOf factor) (ExpressionOf Factor) :=
  sound.chain.chain

theorem Sound.argumentsFrom (sound : Sound argument Operand)
    (h : argumentsFrom argument done ts = .ok (es, rest)) :
    ∃ us more, ts = us ++ rest ∧ es = done.reverse ++ more ∧ Further Operand us more := by
  fun_induction Expr.argumentsFrom argument done ts with
  | case1 done => cases h; exact ⟨[], [], rfl, (List.append_nil _).symm, .none⟩
  | case2 => cases h
  | case3 done t ts comma e after found shorter ih =>
    obtain ⟨us, more, rfl, rfl, further⟩ := ih h
    obtain ⟨-, vs, rfl, isArgument⟩ := sound _ _ _ found
    exact ⟨t :: (vs ++ us), e :: more, by simp, by simp,
      .more (isMark_iff.mp comma) isArgument further⟩
  | case4 done t ts comma e after found longer =>
    obtain ⟨-, us, rfl, -⟩ := sound _ _ _ found
    rw [List.length_append] at longer
    omega
  | case5 done t ts other => cases h; exact ⟨[], [], rfl, (List.append_nil _).symm, .none⟩

theorem Sound.takeArguments (sound : Sound argument Operand)
    (h : takeArguments argument ts = .ok (es, rest)) :
    ∃ opening us e vs more closing, ts = opening :: (us ++ (vs ++ [closing])) ++ rest ∧
      es = e :: more ∧ opening.kind = .mark '(' ∧ Operand us e ∧ Further Operand vs more ∧
      closing.kind = .mark ')' := by
  simp only [Expr.takeArguments, bind_eq_ok_iff, Prod.exists, takeMark_eq_ok_iff] at h
  obtain ⟨_, ⟨opening, rfl, open_⟩, e, _, first, es, _, others, _, ⟨closing, rfl, close⟩, h⟩ := h
  cases h
  obtain ⟨-, us, rfl, isArgument⟩ := sound _ _ _ first
  obtain ⟨vs, more, rfl, rfl, further⟩ := sound.argumentsFrom others
  exact ⟨opening, us, e, vs, more, closing, by simp, rfl, open_, isArgument, further, close⟩

theorem sound_factor : ∀ depth, Sound (Expr.factor depth) (IsFactor depth)
  | 0, _, _, _, h => nomatch h
  | depth + 1, ts, e, rest, h => by
    have inner := (sound_factor depth).expressionOf
    unfold Expr.factor at h
    split at h
    · cases h
    · next t ts =>
      split at h
      · next x kind => cases h; exact ⟨Nat.le_add_left 1 255, [t], rfl, .number kind⟩
      · next r kind => cases h; exact ⟨Nat.le_add_left 1 255, [t], rfl, .reference kind⟩
      · next op kind =>
        simp only [bind_eq_ok_iff, Prod.exists] at h
        obtain ⟨es, after, taken, tree, built, h⟩ := h
        cases h
        obtain ⟨opening, us, e, vs, more, closing, rfl, rfl, open_, isArgument, further, close⟩ :=
          inner.takeArguments taken
        obtain ⟨low, rfl⟩ := build_eq_ok_iff.mp built
        exact ⟨low, _, rfl, .call kind open_ isArgument further close⟩
      · next kind =>
        simp only [bind_eq_ok_iff, Prod.exists, takeMark_eq_ok_iff] at h
        obtain ⟨e, _, found, _, ⟨closing, rfl, close⟩, h⟩ := h
        cases h
        obtain ⟨low, us, rfl, isExpression⟩ := inner _ _ _ found
        exact ⟨low, t :: (us ++ [closing]), by simp, .group kind isExpression close⟩
      · next kind =>
        simp only [bind_eq_ok_iff, Prod.exists] at h
        obtain ⟨e, after, found, tree, built, h⟩ := h
        cases h
        obtain ⟨-, us, rfl, isFactor⟩ := sound_factor depth _ _ _ found
        obtain ⟨low, rfl⟩ := build_eq_ok_iff.mp built
        exact ⟨low, t :: us, rfl, .negation kind isFactor⟩
      · cases h

/-! ## Completeness -/

/-- Every row of the given kind is taken off, if its tree is not too high and the tokens after it
may stand there. -/
def Complete (read : Reader) (P : List Token → Expr → Prop) (Stop : List Token → Prop) : Prop :=
  ∀ us e rest, P us e → e.height ≤ maxDepth → Stop rest → read (us ++ rest) = .ok (e, rest)

/-- The result is the given one, or there are too many levels where there may be. -/
def Gives {α : Type} (deep : Prop) (result : Except FormulaError α) (a : α) : Prop :=
  result = .ok a ∨ deep ∧ result = .error .tooDeep

/-- Every row of the given kind is taken off or is too deep, if the tokens after it may stand there.
Where no row may be too deep, only trees that are not too high are spoken of. -/
def Answers (deep : Prop) (read : Reader) (P : List Token → Expr → Prop)
    (Stop : List Token → Prop) : Prop :=
  ∀ us e rest, P us e → deep ∨ e.height ≤ maxDepth → Stop rest →
    Gives deep (read (us ++ rest)) (e, rest)

theorem Answers.complete {read : Reader} {Stop : List Token → Prop}
    (answers : Answers False read Operand Stop) : Complete read Operand Stop :=
  fun us e rest h low stop => (answers us e rest h (.inr low) stop).resolve_right And.left

variable {deep : Prop}

theorem gives_ok {α : Type} (a : α) : Gives deep (.ok a) a := .inl rfl

theorem Gives.bind {α β : Type} {x : Except FormulaError α} {f : α → Except FormulaError β} {a : α}
    {b : β} (h : Gives deep x a) (h' : Gives deep (f a) b) : Gives deep (x >>= f) b := by
  rcases h with rfl | ⟨may, rfl⟩
  · exact h'
  · exact .inr ⟨may, rfl⟩

theorem gives_build (low : deep ∨ (apply op es).height ≤ maxDepth) :
    Gives deep (build op es) (apply op es) := by
  unfold build
  split
  · exact gives_ok _
  · next high => exact .inr ⟨low.resolve_right high, rfl⟩

theorem gives_takeMark {c : Char} (kind : t.kind = .mark c) :
    Gives deep (takeMark c (t :: rest)) rest :=
  .inl (takeMark_eq_ok_iff.mpr ⟨t, rfl, kind⟩)

theorem low_operands (low : deep ∨ (apply op es).height ≤ maxDepth) :
    ∀ e ∈ es, deep ∨ e.height ≤ maxDepth := fun e he =>
  low.imp_right fun low => height_apply_le_iff.mp (Nat.le_trans low (Nat.le_succ maxDepth)) e he

/-! ## Complete rows and lists -/

/-- A row of operations does not go on into the tokens. -/
def NoSign (sign? : Char → Option Op) (ts : List Token) : Prop :=
  ∀ t ∈ ts.head?, t.sign? sign? = none

theorem chainFrom_stop (stop : NoSign sign? ts) :
    chainFrom sign? operand left ts = .ok (left, ts) := by
  cases ts with
  | nil => rw [chainFrom]
  | cons t ts => rw [chainFrom, stop t rfl]

variable {Stop : List Token → Prop}

/-- After a row of operations has been taken off, the reader goes on with the tokens behind it. -/
theorem Answers.chain_append (answers : Answers deep operand Operand Stop)
    (next : ∀ t ts, (Token.sign? sign? t).isSome → Stop (t :: ts))
    (h : Joined sign? Operand ts e) (low : deep ∨ e.height ≤ maxDepth) (stop : Stop rest) :
    chain sign? operand (ts ++ rest) = chainFrom sign? operand e rest ∨
      deep ∧ chain sign? operand (ts ++ rest) = .error .tooDeep := by
  induction h generalizing rest with
  | single h =>
    rw [chain]
    rcases answers _ _ _ h low stop with found | ⟨may, deep⟩
    · rw [found]; exact .inl rfl
    · rw [deep]; exact .inr ⟨may, rfl⟩
  | @join ts us t op left right _ signed isOperand ih =>
    have lower := low_operands low
    rw [List.append_assoc, List.cons_append]
    rcases ih (lower left (by simp)) (next t (us ++ rest) (by rw [signed]; rfl)) with
      row | ⟨may, deep⟩
    · rw [row, chainFrom]
      simp only [signed]
      rcases answers _ _ _ isOperand (lower right (by simp)) stop with found | ⟨may, deep⟩
      · rcases gives_build low with built | ⟨may, deep⟩
        · simp only [found, built, List.length_append, Nat.le_add_left, if_true, true_or]
        · simp only [found, deep, may, and_self, or_true]
      · simp only [deep, may, and_self, or_true]
    · exact .inr ⟨may, deep⟩

theorem Answers.chain (answers : Answers deep operand Operand Stop)
    (next : ∀ t ts, (Token.sign? sign? t).isSome → Stop (t :: ts)) :
    Answers deep (chain sign? operand) (Joined sign? Operand)
      fun ts => Stop ts ∧ NoSign sign? ts := by
  intro us e rest h low stop
  rcases answers.chain_append next h low stop.1 with row | deep
  · rw [row, chainFrom_stop stop.2]
    exact gives_ok _
  · exact .inr deep

/-- Neither a sum nor a product goes on into the tokens. -/
def Ended (ts : List Token) : Prop := NoSign Op.ofProductSign? ts ∧ NoSign Op.ofSumSign? ts

theorem ended_nil : Ended [] := ⟨nofun, nofun⟩

theorem ended_mark {c : Char} (kind : t.kind = .mark c) (sum : Op.ofSumSign? c = none)
    (product : Op.ofProductSign? c = none) : Ended (t :: ts) := by
  constructor
  · intro _ first
    cases first
    simp only [Token.sign?, kind, product]
  · intro _ first
    cases first
    simp only [Token.sign?, kind, sum]

theorem ofProductSign?_of_ofSumSign? {c : Char} (h : (Op.ofSumSign? c).isSome) :
    Op.ofProductSign? c = none := by
  unfold Op.ofSumSign? at h
  split at h
  · rfl
  · rfl
  · cases h

/-- A sign of a sum ends a product. -/
theorem noSign_of_sumSign (signed : (t.sign? Op.ofSumSign?).isSome) :
    NoSign Op.ofProductSign? (t :: ts) := by
  intro _ first
  cases first
  unfold Token.sign? at signed ⊢
  split at signed
  · exact ofProductSign?_of_ofSumSign? signed
  · cases signed

theorem Answers.expressionOf (answers : Answers deep factor Factor fun _ => True) :
    Answers deep (expressionOf factor) (ExpressionOf Factor) Ended := by
  have term : Answers deep (Expr.chain Op.ofProductSign? factor) (TermOf Factor)
      fun ts => True ∧ NoSign Op.ofProductSign? ts := answers.chain fun _ _ _ => trivial
  exact fun us e rest h low stop => term.chain
    (fun _ _ signed => ⟨trivial, noSign_of_sumSign signed⟩) us e rest h low
    ⟨⟨trivial, stop.1⟩, stop.2⟩

/-- Before a comma or a closing parenthesis an argument has ended. -/
theorem ended_further {closing : Token} (h : Further Operand ts es)
    (close : closing.kind = .mark ')') : Ended (ts ++ closing :: rest) := by
  cases h with
  | none => exact ended_mark close rfl rfl
  | more comma _ _ => exact ended_mark comma rfl rfl

theorem Answers.argumentsFrom {closing : Token} (answers : Answers deep argument Operand Ended)
    (h : Further Operand ts es) (low : ∀ e ∈ es, deep ∨ e.height ≤ maxDepth) (done : List Expr)
    (close : closing.kind = .mark ')') :
    Gives deep (argumentsFrom argument done (ts ++ closing :: rest))
      (done.reverse ++ es, closing :: rest) := by
  have closes : closing.isMark ',' = false := by rw [Token.isMark, close]; rfl
  induction h generalizing done with
  | none =>
    rw [List.nil_append, Expr.argumentsFrom, if_neg (by simp [closes]), List.append_nil]
    exact gives_ok _
  | @more comma ts us e es mark isArgument further ih =>
    obtain ⟨first, lower⟩ := List.forall_mem_cons.mp low
    rw [List.cons_append, List.append_assoc, Expr.argumentsFrom, if_pos (isMark_iff.mpr mark)]
    rcases answers ts e (us ++ closing :: rest) isArgument first (ended_further further close) with
      found | ⟨may, deep⟩
    · simp only [found, List.length_append, Nat.le_add_left, if_true]
      have others := ih lower (e :: done)
      rwa [List.reverse_cons, List.append_assoc] at others
    · simp only [deep]
      exact .inr ⟨may, rfl⟩

theorem Answers.takeArguments {us : List Token} {opening closing : Token}
    (answers : Answers deep argument Operand Ended) (open_ : opening.kind = .mark '(')
    (isArgument : Operand ts e) (further : Further Operand us es)
    (close : closing.kind = .mark ')') (low : ∀ e' ∈ e :: es, deep ∨ e'.height ≤ maxDepth) :
    Gives deep (takeArguments argument (opening :: (ts ++ (us ++ [closing])) ++ rest))
      (e :: es, rest) := by
  obtain ⟨first, lower⟩ := List.forall_mem_cons.mp low
  have tokens : opening :: (ts ++ (us ++ [closing])) ++ rest =
      opening :: (ts ++ (us ++ closing :: rest)) := by simp
  rw [tokens, Expr.takeArguments]
  refine (gives_takeMark open_).bind ?_
  refine (answers _ _ _ isArgument first (ended_further further close)).bind ?_
  refine (answers.argumentsFrom further lower [e] close).bind ?_
  exact (gives_takeMark close).bind (gives_ok _)

/-- A factor is taken off if it needs no more levels than there are. -/
theorem answers_factor : ∀ depth levels, deep ∨ levels ≤ depth →
    Answers deep (Expr.factor depth) (IsFactor levels) fun _ => True
  | _, 0, _, _, _, _, h, _, _ => h.elim
  | 0, levels + 1, enough, _, _, _, _, _, _ =>
    .inr ⟨enough.resolve_right (Nat.not_succ_le_zero levels), rfl⟩
  | depth + 1, levels + 1, enough, us, e, rest, h, low, _ => by
    have factors := answers_factor depth levels (enough.imp_right Nat.le_of_succ_le_succ)
    have inner := factors.expressionOf
    cases h with
    | number kind =>
      simp only [List.cons_append, List.nil_append, Expr.factor, kind]
      exact gives_ok _
    | reference kind =>
      simp only [List.cons_append, List.nil_append, Expr.factor, kind]
      exact gives_ok _
    | negation kind h =>
      simp only [List.cons_append, Expr.factor, kind]
      refine (factors _ _ rest h (low_operands low _ List.mem_cons_self) trivial).bind ?_
      exact (gives_build low).bind (gives_ok _)
    | @group opening closing ts e kind h close =>
      simp only [List.cons_append, List.append_assoc, List.nil_append, Expr.factor, kind]
      refine (inner ts e (closing :: rest) h low (ended_mark close rfl rfl)).bind ?_
      exact (gives_takeMark close).bind (gives_ok _)
    | call kind open_ h further close =>
      simp only [List.cons_append, Expr.factor, kind]
      refine (inner.takeArguments open_ h further close (low_operands low)).bind ?_
      exact (gives_build low).bind (gives_ok _)

theorem complete_expression (depth : Nat) :
    Complete (expressionOf (Expr.factor depth)) (IsExpression depth) Ended :=
  (answers_factor depth depth (.inr (Nat.le_refl depth))).expressionOf.complete

/-! ## Whole rows -/

/-- **Reading.** A row of tokens is read as a tree if and only if it is an expression of it and the
tree is not too high. -/
theorem ofTokens_eq_ok_iff :
    ofTokens ts = .ok e ↔ IsExpression maxDepth ts e ∧ e.height ≤ maxDepth := by
  constructor
  · intro h
    unfold ofTokens at h
    split at h
    · cases h
    · next tree found =>
      cases h
      obtain ⟨low, us, rfl, isExpression⟩ := (sound_factor maxDepth).expressionOf _ _ _ found
      rw [List.append_nil]
      exact ⟨isExpression, low⟩
    · cases h
  · intro holds
    obtain ⟨isExpression, low⟩ := holds
    have found := complete_expression maxDepth ts e [] isExpression low ended_nil
    rw [List.append_nil] at found
    rw [ofTokens, found]

end Worksheet.Expr
