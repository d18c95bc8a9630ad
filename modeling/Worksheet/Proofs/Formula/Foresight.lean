import Worksheet.Proofs.Formula.Refusal

/-!
# Readers with one token of foresight

With one token of foresight a reader does the same on every row that goes on like the one it is
given as far as it looks, or that ends there (`Alike`). A reader that refuses a token therefore
refuses it whatever comes behind, and refuses the end of the row in its place. What it has read up
to there can be completed: a missing operand by a number, an open parenthesis by its partner. Both
go through the steps that the reader of factors is made of (`Predictive`).

Results:
* `Predictive.bind`, `Predictive.mark`, `Predictive.of_first`: steps of a reader.
* `Predictive.chain`, `Predictive.takeArguments`: rows of operations and lists of arguments.
* `predictive_factor`: factors of any depth.
-/
namespace Worksheet.Expr

variable {sign? : Char → Option Op} {Operand Factor : List Token → Expr → Prop}
  {operand factor argument : Reader} {ts us rest other : List Token} {t : Token} {e left : Expr}
  {es done : List Expr} {op : Op} {c : Char} {err : FormulaError} {expected : Expected}
  {depth : Nat}

/-! ## Foresight -/

/-- The other tokens end at once or begin with the same token. -/
def Alike (ts other : List Token) : Prop := ∀ t ∈ other.head?, t ∈ ts.head?

theorem Alike.append (us : List Token) (h : Alike ts other) : Alike (us ++ ts) (us ++ other) := by
  cases us with
  | nil => exact h
  | cons t us => exact fun _ first => first

theorem Alike.of_nil (h : Alike [] other) : other = [] := by
  cases other with
  | nil => rfl
  | cons t other => exact nomatch h t rfl

abbrev Taker (α : Type) := List Token → Except FormulaError (α × List Token)

variable {α β : Type} {read : Taker α} {next : α → Taker β} {P P' : List Token → α → Prop}
  {Q : α → List Token → β → Prop} {a : α}

/-- The tokens `us` are taken off every row that goes on like `rest`, or that ends after them. -/
def Takes (read : Taker α) (us : List Token) (a : α) (rest : List Token) : Prop :=
  ∀ other, Alike rest other → read (us ++ other) = .ok (a, other)

/-- Every row that goes on like `rest` after the tokens `us`, or that ends there, is refused at that
place. -/
def Refuses (read : Taker α) (us : List Token) (expected : Expected) (rest : List Token) : Prop :=
  ∀ other, Alike rest other →
    read (us ++ other) = .error (.unexpectedToken (foundText other) expected)

/-- What is taken off is a row of the given kind, what is read before a token that is refused can be
completed to one, and neither depends on more than one token behind it. -/
structure Predictive (read : Taker α) (P : List Token → α → Prop) : Prop where
  taken : ∀ {ts a rest}, read ts = .ok (a, rest) →
    ∃ us, ts = us ++ rest ∧ P us a ∧ Takes read us a rest
  refused : ∀ {ts found expected}, read ts = .error (.unexpectedToken found expected) →
    ∃ us rest, ts = us ++ rest ∧ found = foundText rest ∧ (∃ more a, P (us ++ more) a) ∧
      Refuses read us expected rest

/-! ## Steps of a reader -/

def Then (P : List Token → α → Prop) (Q : α → List Token → β → Prop) (ts : List Token) (b : β) :
    Prop :=
  ∃ us a vs, ts = us ++ vs ∧ P us a ∧ Q a vs b

def Behind (c : Char) (P : List Token → α → Prop) (ts : List Token) (a : α) : Prop :=
  ∃ t us, ts = t :: us ∧ t.kind = .mark c ∧ P us a

def Nothing (a : α) (ts : List Token) (b : α) : Prop := ts = [] ∧ b = a

theorem takeMark_eq_error_iff : takeMark c ts = .error err ↔
    (∀ t ∈ ts.head?, t.kind ≠ .mark c) ∧ err = .unexpectedToken (foundText ts) (.mark c) := by
  cases ts with
  | nil =>
    constructor
    · intro h
      cases h
      refine ⟨fun u hu => ?_, rfl⟩
      cases hu
    · intro h
      rw [h.2]
      rfl
  | cons t ts =>
    rw [List.head?_cons, takeMark]
    split
    · next mark =>
      constructor
      · intro h
        cases h
      · intro h
        exact absurd (isMark_iff.mp mark) (h.1 t rfl)
    · next other =>
      constructor
      · intro h
        cases h
        refine ⟨fun u hu => ?_, rfl⟩
        cases hu
        exact mt isMark_iff.mpr other
      · intro h
        rw [h.2]
        rfl

def markToken (c : Char) : Token := ⟨.mark c, c.toString⟩

namespace Predictive

theorem mono (h : Predictive read P) (sub : ∀ us a, P us a → P' us a) : Predictive read P' where
  taken taken := by
    obtain ⟨us, split, holds, takes⟩ := h.taken taken
    exact ⟨us, split, sub _ _ holds, takes⟩
  refused failed := by
    obtain ⟨us, rest, split, same, ⟨more, a, holds⟩, refuses⟩ := h.refused failed
    exact ⟨us, rest, split, same, ⟨more, a, sub _ _ holds⟩, refuses⟩

theorem nothing (a : α) : Predictive (fun ts => .ok (a, ts)) (Nothing a) where
  taken taken := by cases taken; exact ⟨[], rfl, ⟨rfl, rfl⟩, fun _ _ => rfl⟩
  refused := nofun

theorem bind (h : Predictive read P) (h' : ∀ a, Predictive (next a) (Q a))
    (some : ∀ a, ∃ us b, Q a us b) :
    Predictive (fun ts => read ts >>= fun x => next x.1 x.2) (Then P Q) where
  taken {ts b rest} taken := by
    obtain ⟨⟨a, after⟩, first, second⟩ := bind_eq_ok_iff.mp taken
    obtain ⟨us, rfl, holds, takes⟩ := h.taken first
    obtain ⟨vs, rfl, holds', takes'⟩ := (h' a).taken second
    refine ⟨us ++ vs, (List.append_assoc ..).symm, ⟨us, a, vs, rfl, holds, holds'⟩,
      fun other alike => ?_⟩
    rw [List.append_assoc]
    exact bind_eq_ok_iff.mpr ⟨_, takes _ (alike.append vs), takes' other alike⟩
  refused {ts found expected} failed := by
    rcases bind_eq_error_iff.mp failed with failed | ⟨⟨a, after⟩, first, second⟩
    · obtain ⟨us, rest, rfl, rfl, ⟨more, a, holds⟩, refuses⟩ := h.refused failed
      -- What completes the first row does not complete both: a second one is put behind it.
      obtain ⟨vs, b, holds'⟩ := some a
      refine ⟨us, rest, rfl, rfl, ⟨more ++ vs, b, us ++ more, a, vs, ?_, holds, holds'⟩,
        fun other alike => bind_eq_error_iff.mpr (.inl (refuses other alike))⟩
      rw [List.append_assoc]
    · obtain ⟨us, rfl, holds, takes⟩ := h.taken first
      obtain ⟨vs, rest, rfl, rfl, ⟨more, b, holds'⟩, refuses⟩ := (h' a).refused second
      refine ⟨us ++ vs, rest, (List.append_assoc ..).symm, rfl,
        ⟨more, b, us, a, vs ++ more, List.append_assoc .., holds, holds'⟩, fun other alike => ?_⟩
      rw [List.append_assoc]
      exact bind_eq_error_iff.mpr (.inr ⟨_, takes _ (alike.append vs), refuses other alike⟩)

theorem mark (h : Predictive read P) (some : ∃ us a, P us a) :
    Predictive (fun ts => takeMark c ts >>= read) (Behind c P) where
  taken {ts a rest} taken := by
    obtain ⟨after, first, second⟩ := bind_eq_ok_iff.mp taken
    obtain ⟨t, rfl, kind⟩ := takeMark_eq_ok_iff.mp first
    obtain ⟨us, rfl, holds, takes⟩ := h.taken second
    exact ⟨t :: us, rfl, ⟨t, us, rfl, kind, holds⟩, fun other alike =>
      bind_eq_ok_iff.mpr ⟨_, takeMark_eq_ok_iff.mpr ⟨t, rfl, kind⟩, takes other alike⟩⟩
  refused {ts found expected} failed := by
    rcases bind_eq_error_iff.mp failed with failed | ⟨after, first, second⟩
    · -- The mark itself is missing, and the row behind it has not been begun.
      obtain ⟨us, a, holds⟩ := some
      obtain ⟨other, same⟩ := takeMark_eq_error_iff.mp failed
      cases same
      exact ⟨[], ts, rfl, rfl, ⟨_, a, markToken c, us, rfl, rfl, holds⟩, fun _ alike =>
        bind_eq_error_iff.mpr (.inl (takeMark_eq_error_iff.mpr
          ⟨fun t ht => other t (alike t ht), rfl⟩))⟩
    · obtain ⟨t, rfl, kind⟩ := takeMark_eq_ok_iff.mp first
      obtain ⟨us, rest, rfl, rfl, ⟨more, a, holds⟩, refuses⟩ := h.refused second
      exact ⟨t :: us, rest, rfl, rfl, ⟨more, a, t, _, rfl, kind, holds⟩, fun other alike =>
        bind_eq_error_iff.mpr (.inr ⟨_, takeMark_eq_ok_iff.mpr ⟨t, rfl, kind⟩, refuses other alike⟩)⟩

/-- Looking at the first token, which is refused or taken off. -/
theorem of_first (none : read [] = refuse [] expected) (some : ∃ us a, P us a)
    (first : ∀ t, (∀ ts, read (t :: ts) = refuse (t :: ts) expected) ∨
      ∃ (after : Taker α) (P' : List Token → α → Prop), (∀ ts, read (t :: ts) = after ts) ∧
        Predictive after P' ∧ ∀ us a, P' us a → P (t :: us) a) :
    Predictive read P where
  taken {ts a rest} taken := by
    cases ts with
    | nil => rw [none] at taken; cases taken
    | cons t ts =>
      rcases first t with refused | ⟨after, P', same, h, sub⟩
      · rw [refused] at taken; cases taken
      · rw [same] at taken
        obtain ⟨us, rfl, holds, takes⟩ := h.taken taken
        exact ⟨t :: us, rfl, sub _ _ holds, fun other alike => (same _).trans (takes other alike)⟩
  refused {ts found expected} failed := by
    obtain ⟨row, a, holds⟩ := some
    cases ts with
    | nil =>
      rw [none] at failed
      cases failed
      refine ⟨[], [], rfl, rfl, ⟨row, a, holds⟩, fun other alike => ?_⟩
      rw [alike.of_nil]
      exact none
    | cons t ts =>
      rcases first t with refused | ⟨after, P', same, h, sub⟩
      · rw [refused] at failed
        cases failed
        refine ⟨[], t :: ts, rfl, rfl, ⟨row, a, holds⟩, fun other alike => ?_⟩
        cases other with
        | nil => exact none
        | cons u other => cases alike u rfl; exact refused other
      · rw [same] at failed
        obtain ⟨us, rest, rfl, rfl, ⟨more, a, holds⟩, refuses⟩ := h.refused failed
        exact ⟨t :: us, rest, rfl, rfl, ⟨more, a, sub _ _ holds⟩, fun other alike =>
          (same _).trans (refuses other alike)⟩

/-- Building a tree takes nothing off, and is refused for its height only. -/
theorem build (op : Op) (es : List Expr) :
    Predictive (fun ts => Expr.build op es >>= fun tree => pure (tree, ts))
      (Nothing (apply op es)) where
  taken {ts e rest} taken := by
    obtain ⟨tree, built, same⟩ := bind_eq_ok_iff.mp taken
    cases same
    exact ⟨[], rfl, ⟨rfl, (build_eq_ok_iff.mp built).2⟩, fun other _ =>
      bind_eq_ok_iff.mpr ⟨_, built, rfl⟩⟩
  refused {ts found expected} failed := by
    unfold Expr.build at failed
    split at failed <;> cases failed

end Predictive

/-! ## Rows of operations -/

/-- The tokens go on with a row of operations of which `left` has been read. -/
def Continues (sign? : Char → Option Op) (Operand : List Token → Expr → Prop) (left : Expr)
    (ts : List Token) (e : Expr) : Prop :=
  ∀ row, Joined sign? Operand row left → Joined sign? Operand (row ++ ts) e

theorem continues_nil (left : Expr) : Continues sign? Operand left [] left :=
  fun row joined => by rwa [List.append_nil]

theorem Continues.cons {right : Expr} (h : Continues sign? Operand (.apply op [left, right]) us e)
    (signed : t.sign? sign? = some op) (isOperand : Operand ts right) :
    Continues sign? Operand left (t :: (ts ++ us)) e := fun row joined => by
  have further := h _ (joined.join signed isOperand)
  rwa [List.append_assoc, List.cons_append] at further

theorem chainFrom_cons {right tree : Expr} (signed : t.sign? sign? = some op)
    (taken : operand (us ++ rest) = .ok (right, rest)) (built : build op [left, right] = .ok tree) :
    chainFrom sign? operand left (t :: (us ++ rest)) = chainFrom sign? operand tree rest := by
  rw [chainFrom]
  simp only [signed, taken, built, List.length_append, Nat.le_add_left, if_true]

namespace Predictive

theorem chainFrom (predictive : Predictive operand Operand) (left : Expr) :
    Predictive (chainFrom sign? operand left) (Continues sign? Operand left) where
  taken {ts e rest} h := by
    fun_induction Expr.chainFrom sign? operand left ts with
    | case1 left =>
      cases h
      refine ⟨[], rfl, continues_nil _, fun other alike => ?_⟩
      rw [alike.of_nil, List.append_nil, Expr.chainFrom]
    | case2 left t ts unsigned =>
      cases h
      refine ⟨[], rfl, continues_nil _, fun other alike => chainFrom_stop fun u hu => ?_⟩
      cases alike u hu
      exact unsigned
    | case3 => cases h
    | case4 => cases h
    | case5 left t ts op signed right after taken tree built shorter ih =>
      obtain ⟨us, rfl, isOperand, takes⟩ := predictive.taken taken
      obtain ⟨-, rfl⟩ := build_eq_ok_iff.mp built
      obtain ⟨vs, rfl, continues, takes'⟩ := ih h
      refine ⟨t :: (us ++ vs), by simp, continues.cons signed isOperand, fun other alike => ?_⟩
      rw [List.cons_append, List.append_assoc,
        chainFrom_cons signed (takes _ (alike.append vs)) built, takes' other alike]
    | case6 left t ts op signed right after taken tree built longer =>
      -- An operand is taken off the front, so no tokens can be added.
      obtain ⟨us, rfl, -⟩ := predictive.taken taken
      rw [List.length_append] at longer
      omega
  refused {ts found expected} h := by
    fun_induction Expr.chainFrom sign? operand left ts with
    | case1 => cases h
    | case2 => cases h
    | case3 left t ts op signed err failed =>
      cases h
      obtain ⟨us, rest, rfl, rfl, ⟨more, right, isOperand⟩, refuses⟩ := predictive.refused failed
      have continues := (continues_nil (.apply op [left, right])).cons signed isOperand
      rw [List.append_nil] at continues
      refine ⟨t :: us, rest, rfl, rfl, ⟨more, _, continues⟩, fun other alike => ?_⟩
      rw [List.cons_append, Expr.chainFrom]
      simp only [signed, refuses other alike]
    | case4 left t ts op signed right after taken err failed =>
      -- A tree that is too high is refused, but not for a token.
      cases h
      unfold Expr.build at failed
      split at failed <;> cases failed
    | case5 left t ts op signed right after taken tree built shorter ih =>
      obtain ⟨us, rfl, isOperand, takes⟩ := predictive.taken taken
      obtain ⟨-, rfl⟩ := build_eq_ok_iff.mp built
      obtain ⟨vs, rest, rfl, rfl, ⟨more, e, continues⟩, refuses⟩ := ih h
      have longer := continues.cons signed isOperand
      refine ⟨t :: (us ++ vs), rest, by simp, rfl, ⟨more, e, by simpa using longer⟩,
        fun other alike => ?_⟩
      rw [List.cons_append, List.append_assoc,
        chainFrom_cons signed (takes _ (alike.append vs)) built, refuses other alike]
    | case6 => cases h

theorem chain (predictive : Predictive operand Operand) :
    Predictive (chain sign? operand) (Joined sign? Operand) := by
  have steps : Expr.chain sign? operand = fun ts =>
      operand ts >>= fun x => Expr.chainFrom sign? operand x.1 x.2 := by
    funext ts
    rw [Expr.chain]
    cases operand ts <;> rfl
  rw [steps]
  refine (predictive.bind predictive.chainFrom fun a => ⟨[], a, continues_nil a⟩).mono ?_
  rintro _ e ⟨us, left, vs, rfl, isOperand, continues⟩
  exact continues us (.single isOperand)

theorem expressionOf (predictive : Predictive factor Factor) :
    Predictive (expressionOf factor) (ExpressionOf Factor) :=
  predictive.chain.chain

end Predictive

/-! ## Arguments -/

/-- The tokens go on with a list of arguments of which `done` have been read, newest first. -/
def Appends (Argument : List Token → Expr → Prop) (done : List Expr) (ts : List Token)
    (es : List Expr) : Prop :=
  ∃ more, es = done.reverse ++ more ∧ Further Argument ts more

theorem appends_nil (done : List Expr) : Appends Operand done [] done.reverse :=
  ⟨[], (List.append_nil _).symm, .none⟩

theorem Appends.cons (h : Appends Operand (e :: done) us es) (comma : t.kind = .mark ',')
    (isArgument : Operand ts e) : Appends Operand done (t :: (ts ++ us)) es := by
  obtain ⟨more, rfl, further⟩ := h
  exact ⟨e :: more, by simp, .more comma isArgument further⟩

theorem argumentsFrom_cons {after : List Token} (mark : t.isMark ',' = true)
    (taken : argument (us ++ after) = .ok (e, after)) :
    argumentsFrom argument done (t :: (us ++ after)) = argumentsFrom argument (e :: done) after := by
  rw [argumentsFrom, if_pos mark]
  simp only [taken, List.length_append, Nat.le_add_left, if_true]

theorem argumentsFrom_stop (stop : ∀ t ∈ ts.head?, ¬ t.isMark ',' = true) :
    argumentsFrom argument done ts = .ok (done.reverse, ts) := by
  cases ts with
  | nil => rw [argumentsFrom]
  | cons t ts => rw [argumentsFrom, if_neg (stop t rfl)]

namespace Predictive

theorem argumentsFrom (predictive : Predictive argument Operand) (done : List Expr) :
    Predictive (argumentsFrom argument done) (Appends Operand done) where
  taken {ts es rest} h := by
    fun_induction Expr.argumentsFrom argument done ts with
    | case1 done =>
      cases h
      refine ⟨[], rfl, appends_nil done, fun other alike => ?_⟩
      rw [alike.of_nil, List.append_nil, Expr.argumentsFrom]
    | case2 => cases h
    | case3 done t ts comma e after taken shorter ih =>
      obtain ⟨us, rfl, isArgument, takes⟩ := predictive.taken taken
      obtain ⟨vs, rfl, appends, takes'⟩ := ih h
      refine ⟨t :: (us ++ vs), by simp, appends.cons (isMark_iff.mp comma) isArgument,
        fun other alike => ?_⟩
      rw [List.cons_append, List.append_assoc,
        argumentsFrom_cons comma (takes _ (alike.append vs)), takes' other alike]
    | case4 done t ts comma e after taken longer =>
      obtain ⟨us, rfl, -⟩ := predictive.taken taken
      rw [List.length_append] at longer
      omega
    | case5 done t ts none =>
      cases h
      refine ⟨[], rfl, appends_nil done, fun other alike => argumentsFrom_stop fun u hu => ?_⟩
      cases alike u hu
      exact none
  refused {ts found expected} h := by
    fun_induction Expr.argumentsFrom argument done ts with
    | case1 => cases h
    | case2 done t ts comma err failed =>
      cases h
      obtain ⟨us, rest, rfl, rfl, ⟨more, e, isArgument⟩, refuses⟩ := predictive.refused failed
      have appends := (appends_nil (e :: done)).cons (isMark_iff.mp comma) isArgument
      rw [List.append_nil] at appends
      refine ⟨t :: us, rest, rfl, rfl, ⟨more, _, appends⟩, fun other alike => ?_⟩
      rw [List.cons_append, Expr.argumentsFrom, if_pos comma]
      simp only [refuses other alike]
    | case3 done t ts comma e after taken shorter ih =>
      obtain ⟨us, rfl, isArgument, takes⟩ := predictive.taken taken
      obtain ⟨vs, rest, rfl, rfl, ⟨more, es, appends⟩, refuses⟩ := ih h
      have longer := appends.cons (isMark_iff.mp comma) isArgument
      refine ⟨t :: (us ++ vs), rest, by simp, rfl, ⟨more, es, by simpa using longer⟩,
        fun other alike => ?_⟩
      rw [List.cons_append, List.append_assoc,
        argumentsFrom_cons comma (takes _ (alike.append vs)), refuses other alike]
    | case4 => cases h
    | case5 => cases h

theorem takeArguments (predictive : Predictive argument Operand) (some : ∃ us e, Operand us e) :
    Predictive (takeArguments argument) (Behind '(' (Then Operand fun e =>
      Then (Appends Operand [e]) fun es => Behind ')' (Nothing es))) := by
  have closed (es : List Expr) : ∃ us fs, Behind ')' (Nothing es) us fs :=
    ⟨[markToken ')'], es, markToken ')', [], rfl, rfl, rfl, rfl⟩
  have others (e : Expr) := (predictive.argumentsFrom [e]).bind
    (fun es => (nothing es).mark ⟨[], es, rfl, rfl⟩) closed
  have all (e : Expr) :
      ∃ us es, Then (Appends Operand [e]) (fun es => Behind ')' (Nothing es)) us es := by
    obtain ⟨us, es, close⟩ := closed [e]
    exact ⟨us, es, [], [e], us, rfl, appends_nil [e], close⟩
  refine (predictive.bind others all).mark ?_
  obtain ⟨us, e, isArgument⟩ := some
  obtain ⟨vs, es, rest⟩ := all e
  exact ⟨us ++ vs, es, us, e, vs, rfl, isArgument, rest⟩

end Predictive

/-! ## Factors -/

/-- A number stands wherever an operand is missing. -/
theorem isFactor_zero (depth : Nat) : IsFactor (depth + 1) [⟨.number 0, "0"⟩] (.number 0) :=
  .number rfl

/-- A mark begins a factor only if it is an opening parenthesis or a minus. -/
theorem factor_mark (kind : t.kind = .mark c) (notOpening : c ≠ '(') (notMinus : c ≠ '-')
    (ts : List Token) : Expr.factor (depth + 1) (t :: ts) = refuse (t :: ts) .operand := by
  rw [Expr.factor]
  simp only [kind]

theorem predictive_factor : ∀ depth, Predictive (Expr.factor depth) (IsFactor (depth + 1))
  | 0 => ⟨nofun, nofun⟩
  | depth + 1 => by
    have factors := predictive_factor depth
    have inner := factors.expressionOf
    have zero : IsExpression (depth + 1) [⟨.number 0, "0"⟩] (.number 0) :=
      .single (.single (isFactor_zero depth))
    have calls := inner.takeArguments ⟨_, _, zero⟩
    refine .of_first rfl ⟨_, _, isFactor_zero _⟩ fun t => ?_
    cases kind : t.kind with
    | number x =>
      refine .inr ⟨_, _, fun ts => by simp only [Expr.factor, kind], .nothing (.number x), ?_⟩
      rintro _ _ ⟨rfl, rfl⟩
      exact .number kind
    | reference r =>
      refine .inr ⟨_, _, fun ts => by simp only [Expr.factor, kind], .nothing (.reference r), ?_⟩
      rintro _ _ ⟨rfl, rfl⟩
      exact .reference kind
    | function op =>
      refine .inr ⟨_, _, fun ts => by simp only [Expr.factor, kind],
        calls.bind (.build op) fun es => ⟨[], _, rfl, rfl⟩, ?_⟩
      rintro _ _ ⟨_, es, _, rfl, ⟨opening, _, rfl, open_, us, e, _, rfl, isArgument, vs, _, _, rfl,
        ⟨more, rfl, further⟩, closing, _, rfl, close, rfl, rfl⟩, rfl, rfl⟩
      have call := FactorOf.call kind open_ isArgument further close
      rwa [← List.append_nil (_ :: _), List.cons_append, List.cons_append] at call
    | mark c =>
      -- Two marks begin a factor, one of them with an expression behind it.
      by_cases opens : c = '('
      · subst opens
        have close (e : Expr) := (Predictive.nothing e).mark (c := ')') ⟨[], e, rfl, rfl⟩
        refine .inr ⟨_, _, fun ts => by simp only [Expr.factor, kind]; rfl,
          inner.bind close fun e => ⟨[markToken ')'], e, markToken ')', [], rfl, rfl, rfl, rfl⟩, ?_⟩
        rintro _ _ ⟨us, e, _, rfl, isExpression, closing, _, rfl, close, rfl, rfl⟩
        exact .group kind isExpression close
      · by_cases minus : c = '-'
        · subst minus
          refine .inr ⟨_, _, fun ts => by simp only [Expr.factor, kind],
            factors.bind (fun e => .build .sub [e]) fun e => ⟨[], _, rfl, rfl⟩, ?_⟩
          rintro _ _ ⟨us, e, _, rfl, isFactor, rfl, rfl⟩
          rw [List.append_nil]
          exact .negation kind isFactor
        · exact .inl (factor_mark kind opens minus)

end Worksheet.Expr
