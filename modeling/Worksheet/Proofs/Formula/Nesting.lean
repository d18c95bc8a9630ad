import Worksheet.Proofs.Formula.Derivation

/-!
# How deep a row of tokens is nested

While the tokens of a formula are read from the left, parentheses are open, those of calls among
them, and negations wait for the end of their operands. What is open at a place follows from the
tokens before it alone (`Place`), with no regard to the grammar.

In a derivation every token lies in as many factors as are open where it is read, or in one more
where it is an operand or opens something itself. Every negation and every parenthesis has an
operand in it. So the highest mark of a derivation is one more than the nesting of its tokens
(`Spans`), and it is the same in all derivations of them.

Results:
* `Derived.Expression.spans`: what an expression leaves open, and how its marks go with its nesting.
* `Derives.within_iff`: the marks of a row of tokens can be kept below a bound if and only if less
  than the bound is ever open.
-/
namespace Worksheet.Expr

/-! ## Places -/

/-- What is open: a parenthesis, or a negation that waits for the end of its operand. -/
inductive Opening where
  | parenthesis
  | negation
  deriving DecidableEq, Repr

/-- A place in a row of tokens: what is open there, the innermost first, and whether an operand is
to come next. -/
structure Place where
  opened : List Opening
  operand : Bool
  deriving DecidableEq, Repr

/-- What is still open after an operand: the negations of it end with it. -/
def settle (opened : List Opening) : List Opening := opened.dropWhile (· = .negation)

namespace Place

/-- The place after a token. A minus is a negation where an operand is to come. -/
def after (s : Place) (t : Token) : Place :=
  match t.kind with
  | .number _ | .reference _ => ⟨settle s.opened, false⟩
  | .function _ => s
  | .mark '(' => ⟨.parenthesis :: s.opened, true⟩
  | .mark ')' => ⟨settle s.opened.tail, false⟩
  | .mark '-' => if s.operand then ⟨.negation :: s.opened, true⟩ else ⟨s.opened, true⟩
  | .mark _ => ⟨s.opened, true⟩

/-- The most that is open at once from a place to the end of a row of tokens. -/
def peak (s : Place) : List Token → Nat
  | [] => s.opened.length
  | t :: ts => max s.opened.length ((s.after t).peak ts)

end Place

/-- The greatest number of parentheses and negations that are open at once in a row of tokens. -/
def nesting (ts : List Token) : Nat := Place.peak ⟨[], true⟩ ts

variable {ts us : List Token} {t opening closing : Token} {row more : Marked} {e : Expr}
  {opened : List Opening} {op : Op} {bound : Nat}

theorem length_settle_le (opened : List Opening) : (settle opened).length ≤ opened.length :=
  (List.dropWhile_sublist _).length_le

namespace Place

variable {s : Place}

theorem length_le_peak (s : Place) (ts : List Token) : s.opened.length ≤ s.peak ts := by
  cases ts with
  | nil => exact Nat.le_refl _
  | cons t ts => exact Nat.le_max_left ..

theorem length_lt_of_peak_lt (h : s.peak ts < bound) : s.opened.length < bound :=
  Nat.lt_of_le_of_lt (length_le_peak s ts) h

theorem peak_cons_lt_iff :
    s.peak (t :: ts) < bound ↔ s.opened.length < bound ∧ (s.after t).peak ts < bound :=
  Nat.max_lt

theorem peak_append_lt_iff :
    s.peak (ts ++ us) < bound ↔ s.peak ts < bound ∧ (ts.foldl after s).peak us < bound := by
  induction ts generalizing s with
  | nil => exact (and_iff_right_of_imp length_lt_of_peak_lt).symm
  | cons t ts ih => rw [List.cons_append, peak_cons_lt_iff, ih, peak_cons_lt_iff, and_assoc]; rfl

end Place

/-! ## Marks and nesting -/

/-- The tokens are one operand where the given is open, and a bound is above all that is open among
them if and only if none of them lies in more factors. -/
structure Spans (opened : List Opening) (row : Marked) : Prop where
  ends : (row.map Prod.fst).foldl Place.after ⟨opened, true⟩ = ⟨settle opened, false⟩
  peak_lt_iff : ∀ bound, Place.peak ⟨opened, true⟩ (row.map Prod.fst) < bound ↔
    ∀ x ∈ row, x.2 ≤ bound

namespace Spans

variable {n : Nat}

theorem leaf (length : opened.length = n)
    (operand : ∀ s : Place, s.after t = ⟨settle s.opened, false⟩) : Spans opened [(t, n + 1)] where
  ends := operand _
  peak_lt_iff bound := by
    have shorter := length_settle_le opened
    rw [List.map_cons, List.map_nil, Place.peak_cons_lt_iff, operand, Place.peak,
      List.forall_mem_singleton, Nat.succ_le_iff, ← length]
    exact and_iff_left_of_imp fun low => Nat.lt_of_le_of_lt shorter low

/-- A token that leads to a place from where the rest of the operand spans. -/
theorem cons {inner : List Opening} (h : Spans inner row) (length : opened.length = n)
    (next : Place.after ⟨opened, true⟩ t = ⟨inner, true⟩)
    (settled : settle inner = settle opened) : Spans opened ((t, n + 1) :: row) where
  ends := by rw [List.map_cons, List.foldl_cons, next, h.ends, settled]
  peak_lt_iff bound := by
    rw [List.map_cons, Place.peak_cons_lt_iff, next, h.peak_lt_iff, List.forall_mem_cons,
      Nat.succ_le_iff, ← length]

theorem group (h : Spans (.parenthesis :: opened) row) (length : opened.length = n)
    (open_ : opening.kind = .mark '(') (close : closing.kind = .mark ')') :
    Spans opened ((opening, n + 1) :: (row ++ [(closing, n + 1)])) := by
  have first : Place.after ⟨opened, true⟩ opening = ⟨.parenthesis :: opened, true⟩ := by
    simp only [Place.after, open_]
  have inside : (row.map Prod.fst).foldl Place.after ⟨.parenthesis :: opened, true⟩ =
      ⟨.parenthesis :: opened, false⟩ := h.ends
  have last : Place.after ⟨.parenthesis :: opened, false⟩ closing = ⟨settle opened, false⟩ := by
    simp only [Place.after, close, List.tail_cons]
  refine ⟨?_, fun bound => ?_⟩
  · rw [List.map_cons, List.map_append, List.foldl_cons, first, List.foldl_append, inside]
    exact last
  · have shorter := length_settle_le opened
    rw [List.map_cons, List.map_append, Place.peak_cons_lt_iff, first, Place.peak_append_lt_iff,
      inside, h.peak_lt_iff, List.map_cons, List.map_nil, Place.peak_cons_lt_iff, last, Place.peak,
      List.forall_mem_cons, List.forall_mem_append, List.forall_mem_singleton, Nat.succ_le_iff,
      ← length]
    constructor
    · rintro ⟨low, inner, -, -⟩
      exact ⟨low, inner, low⟩
    · rintro ⟨low, inner, -⟩
      -- The row in the parentheses is not empty, and it begins with both of them open.
      have deeper := Place.length_lt_of_peak_lt ((h.peak_lt_iff bound).mpr inner)
      exact ⟨low, inner, deeper, Nat.lt_of_le_of_lt shorter low⟩

theorem join (h : Spans opened row) (length : opened.length = n) (settled : settle opened = opened)
    (next : Place.after ⟨opened, false⟩ t = ⟨opened, true⟩) (h' : Spans opened more) :
    Spans opened (row ++ (t, n) :: more) := by
  have ends := h.ends
  rw [settled] at ends
  refine ⟨?_, fun bound => ?_⟩
  · rw [List.map_append, List.map_cons, List.foldl_append, List.foldl_cons, ends, next, h'.ends]
  · rw [List.map_append, List.map_cons, Place.peak_append_lt_iff, Place.peak_cons_lt_iff, ends, next,
      h.peak_lt_iff, h'.peak_lt_iff, List.forall_mem_append, List.forall_mem_cons, ← length]
    refine and_congr_right fun low => and_congr_left fun _ => ?_
    have fewer := Place.length_lt_of_peak_lt ((h.peak_lt_iff bound).mpr low)
    exact iff_of_true fewer (Nat.le_of_lt fewer)

end Spans

/-! ## Derivations -/

/-- Where an operand has come to its end, a sign asks for the next one. -/
theorem after_sign
    (signed : t.sign? Op.ofSumSign? = some op ∨ t.sign? Op.ofProductSign? = some op) :
    Place.after ⟨opened, false⟩ t = ⟨opened, true⟩ := by
  unfold Token.sign? at signed
  cases kind : t.kind with
  | mark c =>
    simp only [kind, Op.ofSumSign?, Op.ofProductSign?] at signed
    rw [Place.after, kind]
    rcases signed with sum | product
    · split at sum
      · rfl
      · rfl
      · cases sum
    · split at product
      · rfl
      · rfl
      · cases product
  | _ =>
    simp only [kind] at signed
    rcases signed with sum | product <;> contradiction

theorem after_comma {s : Place} (kind : t.kind = .mark ',') : s.after t = ⟨s.opened, true⟩ := by
  rw [Place.after, kind]
  rfl

namespace Derived

mutual

/-- The marks of a derivation inside of `n` factors, where `n` parentheses and negations are open.
-/
theorem Expression.spans {n : Nat} {row : Marked} {e : Expr} (h : Expression n row e)
    (opened : List Opening) (length : opened.length = n) (settled : settle opened = opened) :
    Spans opened row := by
  match h with
  | .first h => exact h.spans opened length settled
  | .next hl sign hr =>
    exact (hl.spans opened length settled).join length settled (after_sign (.inl sign))
      (hr.spans opened length settled)

theorem Term.spans {n : Nat} {row : Marked} {e : Expr} (h : Term n row e)
    (opened : List Opening) (length : opened.length = n) (settled : settle opened = opened) :
    Spans opened row := by
  match h with
  | .first h => exact h.spans opened length
  | .next hl sign hr =>
    exact (hl.spans opened length settled).join length settled (after_sign (.inr sign))
      (hr.spans opened length)

theorem Factor.spans {n : Nat} {row : Marked} {e : Expr} (h : Factor n row e)
    (opened : List Opening) (length : opened.length = n) : Spans opened row := by
  have deeper (o : Opening) : (o :: opened).length = n + 1 := congrArg Nat.succ length
  match h with
  | .number kind => exact .leaf length fun s => by simp only [Place.after, kind]
  | .reference kind => exact .leaf length fun s => by simp only [Place.after, kind]
  | .negation kind h =>
    refine (h.spans (.negation :: opened) (deeper _)).cons length ?_ rfl
    simp only [Place.after, kind, if_true]
  | .group open_ h close =>
    exact (h.spans (.parenthesis :: opened) (deeper _) rfl).group length open_ close
  | .call kind open_ h close =>
    have inner := (h.spans (.parenthesis :: opened) (deeper _) rfl).group length open_ close
    refine inner.cons length ?_ rfl
    simp only [Place.after, kind]

theorem Arguments.spans {n : Nat} {row : Marked} {es : List Expr} (h : Arguments n row es)
    (opened : List Opening) (length : opened.length = n) (settled : settle opened = opened) :
    Spans opened row := by
  match h with
  | .last h => exact h.spans opened length settled
  | .more h comma others =>
    exact (h.spans opened length settled).join length settled (after_comma comma)
      (others.spans opened length settled)

end

end Derived

/-- The grammar derives the tree from the tokens. -/
def Derives (ts : List Token) (e : Expr) : Prop :=
  ∃ row, Derived.Expression 0 row e ∧ row.map Prod.fst = ts

/-- A row of tokens that has a derivation has one in which no token lies in more factors than the
bound, if and only if less than the bound is ever open. -/
theorem Derives.within_iff (h : Derives ts e) :
    Within bound (Derived.Expression 0) ts e ↔ nesting ts < bound := by
  constructor
  · intro holds
    obtain ⟨row, rfl, derived, low⟩ := holds
    exact ((derived.spans [] rfl rfl).peak_lt_iff bound).mpr low
  · intro low
    obtain ⟨row, derived, rfl⟩ := h
    exact ⟨row, rfl, derived, ((derived.spans [] rfl rfl).peak_lt_iff bound).mp low⟩

-- A negation, the parenthesis of the call, a negation in it, and the parenthesis after that.
example : (Token.scan ⟨0, 0⟩ "-max(1, -(2)*-3)").toOption.map nesting = some 4 := by decide +kernel

end Worksheet.Expr
