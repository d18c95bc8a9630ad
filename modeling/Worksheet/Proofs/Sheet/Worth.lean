import Worksheet.Proofs.Sheet.History

/-!
# What cells are worth

What a cell is worth is said from the formulas alone, by rules for the trees of formulas: a number
comes to itself, a reference to what its cell is worth, and an operation to what it makes of that to
which its operands come. The rules know neither the records of a sheet nor how and when it evaluates
its cells, and they share nothing with the evaluation of a tree. In a settled sheet they give every
cell one worth, and that is the value which the sheet keeps.

Results:
* `ComesTo.value_eq`, `comesTo_value`: in a settled sheet a tree comes to its value and to nothing
  else.
* `Settled.worth_iff`: in a settled sheet a cell is worth its value and nothing else.
* `worth_iff_value_edits`: so it is after every history.
-/
namespace Worksheet

variable {operators : Op → List Float → Float} {formulas : Position → Option Formula}
  {p q : Position} {e : Expr} {x : Float}

namespace Expr

variable {r : Reference} {read : Position → Float}

theorem value_of_astray (off : r.resolve? p = none) :
    (reference r).value operators p read = 0.0 := by
  rw [value, fold_reference, off]
  rfl

theorem value_of_leads (leads : r.resolve? p = some q) :
    (reference r).value operators p read = read q := by
  rw [value, fold_reference, leads]
  rfl

theorem value_apply (op : Op) (operands : List Expr) :
    (apply op operands).value operators p read =
      operators op (operands.map (value operators p read)) :=
  fold_apply ..

end Expr

namespace Sheet

variable {s : Sheet}

/-! ## The rules -/

/-- What a tree comes to in a formula at a cell, where the operations have the given meaning and the
cells the given formulas. -/
inductive ComesTo (operators : Op → List Float → Float) (formulas : Position → Option Formula) :
    Position → Expr → Float → Prop
  | number {p : Position} {x : Float} : ComesTo operators formulas p (.number x) x
  /-- A reference that leads off the grid. -/
  | astray {p : Position} {r : Reference} : r.resolve? p = none →
      ComesTo operators formulas p (.reference r) 0.0
  /-- A reference to a cell without a formula. -/
  | blank {p q : Position} {r : Reference} : r.resolve? p = some q → formulas q = none →
      ComesTo operators formulas p (.reference r) 0.0
  | formula {p q : Position} {r : Reference} {f : Formula} {x : Float} : r.resolve? p = some q →
      formulas q = some f → ComesTo operators formulas q f.tree x →
      ComesTo operators formulas p (.reference r) x
  /-- An operation, where each operand `e` comes to `worth e`. -/
  | apply {p : Position} {op : Op} {operands : List Expr} {worth : Expr → Float} :
      (∀ e ∈ operands, ComesTo operators formulas p e (worth e)) →
      ComesTo operators formulas p (.apply op operands) (operators op (operands.map worth))

/-- What a cell is worth: zero without a formula, and else what the tree of its formula comes to. -/
def Worth (operators : Op → List Float → Float) (formulas : Position → Option Formula)
    (p : Position) (x : Float) : Prop :=
  match formulas p with
  | none => x = 0.0
  | some f => ComesTo operators formulas p f.tree x

theorem worth_iff_of_bare (bare : formulas p = none) : Worth operators formulas p x ↔ x = 0.0 := by
  rw [Worth, bare]

theorem worth_iff_of_formula {f : Formula} (hf : formulas p = some f) :
    Worth operators formulas p x ↔ ComesTo operators formulas p f.tree x := by
  rw [Worth, hf]

/-! ## Values of a settled sheet -/

theorem Settled.value_of_bare (h : s.Settled) (bare : s.formula? p = none) : s.value p = 0.0 := by
  rw [h.current p List.not_mem_nil, computed, bare]

theorem Settled.value_of_formula (h : s.Settled) {f : Formula} (hf : s.formula? p = some f) :
    s.value p = f.tree.value s.operators p s.value := by
  rw [h.current p List.not_mem_nil, computed, hf]

theorem ComesTo.value_eq (h : s.Settled) (comes : ComesTo s.operators s.formula? p e x) :
    e.value s.operators p s.value = x := by
  induction comes with
  | number => rfl
  | astray off => rw [Expr.value_of_astray off]
  | blank leads bare => rw [Expr.value_of_leads leads, h.value_of_bare bare]
  | formula leads hf _ ih => rw [Expr.value_of_leads leads, h.value_of_formula hf, ih]
  | apply _ ih => rw [Expr.value_apply, List.map_congr_left ih]

/-- A tree comes to its value if the cells that it refers to are worth theirs. -/
theorem comesTo_value (worth : ∀ q ∈ e.references p, Worth s.operators s.formula? q (s.value q)) :
    ComesTo s.operators s.formula? p e (e.value s.operators p s.value) := by
  induction e using Expr.induction with
  | hnumber x => exact .number
  | hreference r =>
    cases leads : r.resolve? p with
    | none =>
      rw [Expr.value_of_astray leads]
      exact .astray leads
    | some q =>
      have worth := worth q (by simp [Expr.references, leads])
      rw [Expr.value_of_leads leads]
      cases hf : s.formula? q with
      | none =>
        rw [(worth_iff_of_bare hf).mp worth]
        exact .blank leads hf
      | some f => exact .formula leads hf ((worth_iff_of_formula hf).mp worth)
  | happly op operands ih =>
    rw [Expr.value_apply]
    refine .apply fun e he => ih e he fun q hq => worth q ?_
    rw [Expr.references, Expr.fold_apply]
    exact List.mem_flatten.mpr ⟨_, List.mem_map_of_mem he, hq⟩

/-- The value of a cell is what it is worth, and it is worth nothing else. -/
theorem Settled.worth_iff (h : s.Settled) : Worth s.operators s.formula? p x ↔ s.value p = x := by
  constructor
  · intro worth
    cases hf : s.formula? p with
    | none => rw [(worth_iff_of_bare hf).mp worth, h.value_of_bare hf]
    | some f =>
      rw [h.value_of_formula hf]
      exact ((worth_iff_of_formula hf).mp worth).value_eq h
  · rintro rfl
    -- What a cell refers to is worth its value before the cell is, as no cell depends on itself.
    induction p using h.acyclic.wellFounded.induction with
    | h p ih =>
      cases hf : s.formula? p with
      | none => exact (worth_iff_of_bare hf).mpr (h.value_of_bare hf)
      | some f =>
        rw [worth_iff_of_formula hf, h.value_of_formula hf]
        exact comesTo_value fun q hq => ih q (feeds_iff.mpr ⟨f, hf, hq⟩)

/-- **No stale values.** After every history a cell has exactly the value that it is worth by the
formulas which the sheet then has. -/
theorem worth_iff_value_edits (name : String) (operators : Op → List Float → Float)
    (es : List Edit) (p : Position) (x : Float) :
    Worth operators ((blank name operators).edits es).formula? p x ↔
      ((blank name operators).edits es).value p = x := by
  have settled := settled_edits name operators es
  have same : ((blank name operators).edits es).operators = operators := operators_edits _ es
  rw [← settled.worth_iff, same]

end Sheet

end Worksheet
