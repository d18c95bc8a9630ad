import Mathlib.Logic.Function.Basic
import Worksheet.Proofs.Sheet.History

/-!
# Circular entries

A map of trees says which cells refer to which, and nothing else does: neither the records of a
sheet nor the links in them. An entry is refused as circular if and only if the map in which its
tree takes the place of the old one has a cycle, although the search for a clash follows the links,
to which those of the old formula still belong.

Results:
* `Settled.clash?_eq_none_iff_acyclic`: a search finds nothing if and only if there is no cycle.
* `Settled.enter_cases`: an entry that is well-formed changes one tree or is circular.
* `enter_circular_iff_edits`: when an entry is circular after a history, and which cells it names.
-/
namespace Worksheet

open Relation

/-! ## Maps of trees -/

/-- Where the cells have the given trees, the one of `q` refers to `p`. -/
def FeedsBy (trees : Position → Option Expr) (p q : Position) : Prop :=
  ∃ tree, trees q = some tree ∧ p ∈ tree.references q

theorem feedsBy_update {trees : Position → Option Expr} {p a b : Position} {tree : Expr} :
    FeedsBy (Function.update trees p (some tree)) a b ↔
      if b = p then a ∈ tree.references p else FeedsBy trees a b := by
  unfold FeedsBy
  by_cases same : b = p
  · subst same
    simp
  · simp [same]

namespace Sheet

variable {s : Sheet} {p q c via : Position} {cell text : String} {tree : Expr}

def trees (s : Sheet) (p : Position) : Option Expr := (s.formula? p).map Formula.tree

theorem trees_blank (name : String) (operators : Op → List Float → Float) (p : Position) :
    (blank name operators).trees p = none := by
  rw [trees, formula?, cell_blank]
  rfl

theorem feedsBy_trees : FeedsBy s.trees p q ↔ s.Feeds p q := by
  rw [feeds_iff]
  simp only [FeedsBy, trees, Option.map_eq_some_iff]
  constructor
  · intro holds
    obtain ⟨_, ⟨f, hf, rfl⟩, mem⟩ := holds
    exact ⟨f, hf, mem⟩
  · intro holds
    obtain ⟨f, hf, mem⟩ := holds
    exact ⟨f.tree, ⟨f, hf, rfl⟩, mem⟩

theorem Settled.reaches_iff (h : s.Settled) :
    s.links.Reaches p q ↔ ReflTransGen (FeedsBy s.trees) p q := by
  have same : s.links.Leads = FeedsBy s.trees := by
    funext a b
    exact propext (h.mem_dependents_iff.trans feedsBy_trees.symm)
  rw [Links.Reaches, same]

/-! ## The search -/

theorem Settled.clash?_eq_none_iff_acyclic (h : s.Settled) :
    s.clash? p tree = none ↔ Acyclic (FeedsBy (Function.update s.trees p (some tree))) := by
  have acyclic : Acyclic (FeedsBy s.trees) := h.acyclic.mono fun a b => feedsBy_trees.mp
  -- The two maps differ in what leads to `p` and in nothing else, and no path from `p` needs that.
  rw [acyclic.redirect_iff (p := p) fun a b hb => by rw [feedsBy_update, if_neg hb],
    clash?_eq_none_iff]
  simp only [feedsBy_update, if_true, h.reaches_iff]

/-- A clash is found at a cell that the tree refers to and that is `p` or depends on it. -/
theorem Settled.of_clash? (h : s.Settled) (found : s.clash? p tree = some via) :
    via ∈ tree.references p ∧ (via = p ∨ TransGen (FeedsBy s.trees) p via) := by
  have mem : via ∈ tree.references p := by simpa using List.find?_some found
  have reach := h.reaches_iff.mp (Links.mem_walk_iff.mp (List.mem_of_find?_eq_some found))
  exact ⟨mem, reflTransGen_iff_eq_or_transGen.mp reach⟩

/-! ## Entries -/

/-- An entry that is well-formed changes one tree if no cycle comes of it. If one does, the entry is
refused as circular. -/
theorem Settled.enter_cases (h : s.Settled) (named : Position.read cell = .ok p)
    (parsed : Expr.parse p text = .ok tree) :
    (Acyclic (FeedsBy (Function.update s.trees p (some tree))) ∧
      (∃ updates, (s.enter cell text).2 = .ok updates) ∧
      (s.enter cell text).1.trees = Function.update s.trees p (some tree)) ∨
    (¬ Acyclic (FeedsBy (Function.update s.trees p (some tree))) ∧
      ∃ via, s.clash? p tree = some via ∧ (s.enter cell text).2 = .error (.circular p via)) := by
  rw [enter_of_read named, ← h.clash?_eq_none_iff_acyclic]
  cases found : s.clash? p tree with
  | none =>
    refine .inl ⟨rfl, ?_⟩
    rw [enterAt_eq parsed found]
    refine ⟨⟨_, rfl⟩, ?_⟩
    funext q
    rw [trees, recompute, formula?_evaluateEach, formula?_place, Function.update_apply]
    by_cases same : p = q
    · rw [if_pos same, if_pos same.symm]
      rfl
    · rw [if_neg same, if_neg (Ne.symm same)]
      rfl
  | some via =>
    refine .inr ⟨Option.some_ne_none via, via, rfl, ?_⟩
    simp only [Sheet.enterAt, parsed, found]

theorem exists_ok_of_any {ε α : Type} {x : Except ε α} {check : α → Bool}
    (h : x.toOption.any check = true) : ∃ a, x = .ok a ∧ check a = true := by
  cases x with
  | error e => cases h
  | ok a => exact ⟨a, rfl, h⟩

/-- **Circular entries.** After every history a well-formed entry is refused as circular if and only
if a cycle would come of it, that is, if its formula refers to its own cell or to one that depends
on it. The refusal names the cell, and one that the formula refers to and that depends on the cell.
-/
theorem enter_circular_iff_edits (name : String) (operators : Op → List Float → Float)
    (es : List Edit) (named : Position.read cell = .ok p)
    (parsed : Expr.parse p text = .ok tree) :
    let s := (blank name operators).edits es
    ((∃ c via, (s.enter cell text).2 = .error (.circular c via)) ↔
      ¬ Acyclic (FeedsBy (Function.update s.trees p (some tree)))) ∧
    (¬ Acyclic (FeedsBy (Function.update s.trees p (some tree))) ↔
      ∃ q ∈ tree.references p, q = p ∨ TransGen (FeedsBy s.trees) p q) ∧
    ∀ c via, (s.enter cell text).2 = .error (.circular c via) →
      c = p ∧ via ∈ tree.references p ∧ (via = p ∨ TransGen (FeedsBy s.trees) p via) := by
  intro s
  have settled : s.Settled := settled_edits name operators es
  refine ⟨?_, ?_, fun c via refused => ?_⟩
  · rcases settled.enter_cases named parsed with ⟨acyclic, ⟨_, entered⟩, -⟩ | ⟨cycle, via, -, refused⟩
    · rw [entered]
      exact ⟨nofun, absurd acyclic⟩
    · exact ⟨fun _ => cycle, fun _ => ⟨p, via, refused⟩⟩
  · rw [← settled.clash?_eq_none_iff_acyclic, clash?_eq_none_iff]
    simp only [settled.reaches_iff, reflTransGen_iff_eq_or_transGen, not_forall, not_not, exists_prop]
  · rcases settled.enter_cases named parsed with ⟨-, ⟨_, entered⟩, -⟩ | ⟨-, via', found, refused'⟩
    · rw [entered] at refused
      cases refused
    · rw [refused'] at refused
      cases refused
      exact ⟨rfl, settled.of_clash? found⟩

theorem enter_circular_through_b1 :
    let s := (blank "sheet" Op.apply).edits [.enter "b1" "-a$1 / 2"]
    ∃ tree, Position.read "$A$1" = .ok ⟨0, 0⟩ ∧ Expr.parse ⟨0, 0⟩ "3 * b1" = .ok tree ∧
      ¬ Acyclic (FeedsBy (Function.update s.trees ⟨0, 0⟩ (some tree))) ∧
      (s.enter "$A$1" "3 * b1").2 = .error (.circular ⟨0, 0⟩ ⟨1, 0⟩) := by
  intro s
  have b1 : Position.read "b1" = .ok ⟨1, 0⟩ := by decide +kernel
  have a1 : Position.read "$A$1" = .ok ⟨0, 0⟩ := by decide +kernel
  have halved : ((Expr.parse ⟨1, 0⟩ "-a$1 / 2").toOption.any fun tree =>
      tree.references ⟨1, 0⟩ = [⟨0, 0⟩]) = true := by decide +kernel
  have tripled : ((Expr.parse ⟨0, 0⟩ "3 * b1").toOption.any fun tree =>
      tree.references ⟨0, 0⟩ = [⟨1, 0⟩]) = true := by decide +kernel
  obtain ⟨half, first, halved⟩ := exists_ok_of_any halved
  obtain ⟨triple, parsed, tripled⟩ := exists_ok_of_any tripled
  have halfTargets : half.references ⟨1, 0⟩ = [⟨0, 0⟩] := of_decide_eq_true halved
  have targets : triple.references ⟨0, 0⟩ = [⟨1, 0⟩] := of_decide_eq_true tripled
  -- The first entry finds no clash, since nothing depends on a cell of a blank sheet.
  have trees : s.trees = Function.update (blank "sheet" Op.apply).trees ⟨1, 0⟩ (some half) := by
    have settled := settled_blank "sheet" Op.apply
    rcases settled.enter_cases b1 first with ⟨-, -, trees⟩ | ⟨-, via, found, -⟩
    · exact trees
    · obtain ⟨mem, rfl | path⟩ := settled.of_clash? found
      · rw [halfTargets] at mem
        exact absurd mem (by decide)
      · obtain ⟨_, -, _, none, -⟩ := TransGen.tail'_iff.mp path
        rw [trees_blank] at none
        cases none
  have step : FeedsBy s.trees ⟨0, 0⟩ ⟨1, 0⟩ := by
    rw [trees, feedsBy_update, if_pos rfl, halfTargets]
    exact List.mem_singleton_self _
  have back : (⟨1, 0⟩ : Position) ∈ triple.references ⟨0, 0⟩ := by
    rw [targets]
    exact List.mem_singleton_self _
  obtain ⟨iff_cycle, cycle_iff, names⟩ := enter_circular_iff_edits "sheet" Op.apply
    [.enter "b1" "-a$1 / 2"] a1 parsed
  have cycle := cycle_iff.mpr ⟨⟨1, 0⟩, back, .inr (.single step)⟩
  obtain ⟨c, via, refused⟩ := iff_cycle.mpr cycle
  obtain ⟨rfl, mem, -⟩ := names c via refused
  rw [targets, List.mem_singleton] at mem
  subst mem
  exact ⟨triple, a1, parsed, cycle, refused⟩

end Sheet

end Worksheet
