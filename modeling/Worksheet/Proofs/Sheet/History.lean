import Worksheet.Proofs.Sheet.Settled

/-!
# Histories of sheets

A history is a row of edits, refused ones among them, that starts at a sheet without records. Every
edit keeps a sheet settled, so every history ends in a settled sheet, and what holds of settled
sheets holds whatever has happened to a sheet.

Results:
* `Settled.edit`: an edit keeps a sheet settled.
* `settled_edits`: every history ends in a settled sheet.
* `consistent_edits`: the records agree with the formulas after every history.
-/
namespace Worksheet.Sheet

variable {s : Sheet} {p q : Position}

/-! ## Edits -/

/-- A call that may change a sheet. -/
inductive Edit where
  | enter (cell text : String)
  | remove (cell : String)
  | copy (target source : String)
  | clear
  | load (pairs : List (String × String))
  deriving DecidableEq, Repr

/-- The sheet after an edit, whether it is refused or not. -/
def edit (s : Sheet) : Edit → Sheet
  | .enter cell text => (s.enter cell text).1
  | .remove cell => (s.remove cell).1
  | .copy target source => (s.copy target source).1
  | .clear => s.clear
  | .load pairs => (s.load pairs).1

def edits (s : Sheet) (es : List Edit) : Sheet := es.foldl edit s

/-- A new sheet, in which the operations have the given meaning. -/
def blank (name : String) (operators : Op → List Float → Float) : Sheet :=
  { Sheet.new name with operators := operators }

/-- The sheets that the program makes. -/
theorem new_eq_blank (name : String) : Sheet.new name = blank name Op.apply := rfl

theorem cell_blank (name : String) (operators : Op → List Float → Float) (p : Position) :
    (blank name operators).cell p = .empty :=
  cell_of_not_mem Std.ExtTreeMap.not_mem_empty

theorem settled_blank (name : String) (operators : Op → List Float → Float) :
    (blank name operators).Settled := by
  have bare (p : Position) : (blank name operators).formula? p = none := by
    rw [formula?, cell_blank]; rfl
  have still {p q : Position} : ¬ (blank name operators).Feeds p q :=
    fun feeds => feeds.formula?_ne_none (bare q)
  refine ⟨fun p hp => absurd hp Std.ExtTreeMap.not_mem_empty, fun p f hf => ?_, fun p q hq => ?_,
    fun p q feeds => absurd feeds still, fun p cycle => ?_, fun p _ => ?_⟩
  · rw [bare] at hf; cases hf
  · exact absurd (mem_of_mem_dependents hq) Std.ExtTreeMap.not_mem_empty
  · obtain ⟨a, -, step⟩ := Relation.TransGen.tail'_iff.mp cycle
    exact still step
  · rw [value, cell_blank, computed, bare]; rfl

theorem Settled.edit (h : s.Settled) (e : Edit) : (s.edit e).Settled := by
  cases e with
  | enter cell text => exact h.enter cell text
  | remove cell => exact h.remove cell
  | copy target source => exact h.copy target source
  | clear => exact settled_blank s.name s.operators
  | load pairs => exact h.load pairs

theorem Settled.edits (h : s.Settled) (es : List Edit) : (s.edits es).Settled := by
  induction es generalizing s with
  | nil => exact h
  | cons e es ih => exact ih (h.edit e)

theorem settled_edits (name : String) (operators : Op → List Float → Float) (es : List Edit) :
    ((blank name operators).edits es).Settled :=
  (settled_blank name operators).edits es

/-! ## What the operations mean -/

theorem operators_recompute : (s.recompute p).1.operators = s.operators := operators_evaluateEach

theorem operators_enterAt (s : Sheet) (p : Position) (text : String) :
    (s.enterAt p text).1.operators = s.operators := by
  rcases enterAt_cases s p text with ⟨e, failed⟩ | ⟨tree, -, -, entered⟩
  · rw [failed]
  · rw [entered, operators_recompute, operators_place]

theorem operators_enter (s : Sheet) (cell text : String) :
    (s.enter cell text).1.operators = s.operators := by
  unfold enter
  split
  · rfl
  · exact operators_enterAt s _ text

theorem operators_reenter (s : Sheet) (updates : Updates) (cells : List Position) :
    (s.reenter updates cells).1.operators = s.operators := by
  induction cells generalizing s updates with
  | nil => rfl
  | cons p cells ih =>
    rw [reenter]
    split
    · exact ih s updates
    · next f hf =>
      have entered := operators_enterAt s p f.text
      split
      · next e he => rwa [he] at entered
      · next t more ht => rw [ht] at entered; exact (ih t _).trans entered

theorem operators_removeAt (s : Sheet) (p : Position) :
    (s.removeAt p).1.operators = s.operators :=
  (operators_reenter (s.dropped p) _ _).trans operators_dropped

theorem operators_load (s : Sheet) (pairs : List (String × String)) :
    (s.load pairs).1.operators = s.operators := by
  induction pairs generalizing s with
  | nil => rfl
  | cons pair pairs ih =>
    have entered := operators_enter s pair.1 pair.2
    rw [load]
    split
    · next e he => rwa [he] at entered
    · next t more ht => rw [ht] at entered; exact (ih t).trans entered

theorem operators_edit (s : Sheet) (e : Edit) : (s.edit e).operators = s.operators := by
  cases e with
  | enter cell text => exact operators_enter s cell text
  | remove cell =>
    unfold edit remove
    dsimp only
    split
    · rfl
    · exact operators_removeAt s _
  | copy target source =>
    unfold edit copy
    dsimp only
    split
    · rfl
    · split
      · rfl
      · unfold copyAt
        split
        · exact operators_removeAt s _
        · exact operators_enterAt s _ _
  | clear => rfl
  | load pairs => exact operators_load s pairs

theorem operators_edits (s : Sheet) (es : List Edit) : (s.edits es).operators = s.operators := by
  induction es generalizing s with
  | nil => rfl
  | cons e es ih => exact (ih (s.edit e)).trans (operators_edit s e)

/-! ## Consistency -/

/-- The text that a sheet shows for the formula of a cell; empty if it has none. -/
def shown (s : Sheet) (p : Position) : String := ((s.formula? p).map Formula.text).getD ""

/-- The records of a sheet agree with its formulas. -/
structure Consistent (s : Sheet) : Prop where
  /-- A record is that of a cell of the grid, and the cell's name is read as the cell. -/
  named : ∀ p ∈ s.cells, p.OnGrid ∧ Position.read p.name = .ok p
  /-- Formulas are not empty, so the cells that show a text are those with a formula. -/
  shown_ne_empty_iff : ∀ p, s.shown p ≠ "" ↔ (s.formula? p).isSome
  /-- The text of a formula is parsed as its tree. -/
  parsed : ∀ p f, s.formula? p = some f → Expr.parse p f.text = .ok f.tree
  /-- The references of a formula lead to cells of the grid. -/
  resolved : ∀ p f, s.formula? p = some f → ∀ r ∈ f.tree.targets, (r.resolve? p).isSome
  /-- The dependents of a cell are the cells whose formulas refer to it. -/
  linked : ∀ p q, q ∈ s.dependents p ↔ ∃ f, s.formula? q = some f ∧ p ∈ f.tree.references q
  /-- Cells that formulas refer to have records, and so have the cells of these formulas. -/
  recorded : ∀ p q, q ∈ s.dependents p → p ∈ s.cells ∧ q ∈ s.cells
  /-- No cell depends on itself. -/
  acyclic : Acyclic s.links.Leads

theorem feeds_iff : s.Feeds p q ↔ ∃ f, s.formula? q = some f ∧ p ∈ f.tree.references q := by
  constructor
  · intro feeds
    obtain ⟨f, hf⟩ := Option.ne_none_iff_exists'.mp feeds.formula?_ne_none
    exact ⟨f, hf, by rwa [Feeds, references_eq hf] at feeds⟩
  · intro holds
    obtain ⟨f, hf, mem⟩ := holds
    rwa [Feeds, references_eq hf]

theorem Settled.consistent (h : s.Settled) : s.Consistent where
  named p hp := ⟨h.onGrid p hp, Position.read_name (h.onGrid p hp)⟩
  shown_ne_empty_iff p := by
    unfold shown
    cases hf : s.formula? p with
    | none => simp
    | some f => simpa using Expr.ne_empty_of_parse (h.parsed p f hf).1
  parsed p f hf := (h.parsed p f hf).1
  resolved p f hf := (Expr.formed_of_parse (h.parsed p f hf).1).resolves
  linked p q := h.mem_dependents_iff.trans feeds_iff
  recorded p q hq := by
    obtain ⟨f, hf, -⟩ := feeds_iff.mp (h.mem_dependents_iff.mp hq)
    exact ⟨mem_of_mem_dependents hq, mem_of_formula? hf⟩
  acyclic := h.links_acyclic

/-- **Consistency.** After every history the records agree with the formulas: whatever was entered,
removed, copied, cleared or loaded, and whatever of it was refused. -/
theorem consistent_edits (name : String) (operators : Op → List Float → Float) (es : List Edit) :
    ((blank name operators).edits es).Consistent :=
  (settled_edits name operators es).consistent

end Worksheet.Sheet
