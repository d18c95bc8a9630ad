import Worksheet.Proofs.Links.Walk
import Worksheet.Sheet.Edit

/-!
# What each step does to the records

A sheet is seen through four questions: which cells have a record, and what are the formula, the
value and the dependents of a cell. Each step of an entry is answered for all four. Only `place` and
the erasing of a record change formulas, only `evaluate` changes a value, and links change only
where a formula is linked or unlinked.

Results:
* `Expr.value_congr`: the value of a formula depends on the cells that it refers to and no others.
* `formula?_evaluateEach`, `mem_dependents_evaluateEach`, `mem_evaluateEach`,
  `value_evaluateEach_of_not_mem`: what a row of evaluations leaves.
* `getElem?_evaluateEach`: its updates are the values that its cells have in the end.
-/
namespace Worksheet

theorem Expr.value_congr {operators : Op → List Float → Float} {base : Position}
    {read read' : Position → Float} (e : Expr) (h : ∀ q ∈ e.references base, read q = read' q) :
    e.value operators base read = e.value operators base read' := by
  induction e using Expr.induction with
  | hnumber x => rfl
  | hreference r =>
    simp only [references, value, fold_reference] at h ⊢
    cases hr : r.resolve? base with
    | none => rfl
    | some q => simpa [hr] using h q (by simp [hr])
  | happly op operands ih =>
    simp only [references, value, fold_apply] at h ih ⊢
    congr 1
    refine List.map_congr_left fun e he => ih e he fun q hq => h q ?_
    exact List.mem_flatten.mpr ⟨_, List.mem_map_of_mem he, hq⟩

namespace Sheet

variable {s : Sheet} {p q x : Position}

/-- The formula of `q` refers to `p`. -/
def Feeds (s : Sheet) (p q : Position) : Prop := p ∈ s.references q

/-- What the formula of a cell comes to, where the cells have the values that the sheet keeps. -/
def computed (s : Sheet) (p : Position) : Float :=
  match s.formula? p with
  | none => 0.0
  | some f => f.tree.value s.operators p s.value

theorem references_eq_nil (h : s.formula? p = none) : s.references p = [] := by
  rw [references, h]

theorem references_eq {f : Formula} (h : s.formula? p = some f) :
    s.references p = f.tree.references p := by rw [references, h]

theorem Feeds.formula?_ne_none (h : s.Feeds p q) : s.formula? q ≠ none := by
  intro none
  rw [Feeds, references_eq_nil none] at h
  cases h

theorem references_congr {t : Sheet} (h : t.formula? p = s.formula? p) :
    t.references p = s.references p := by rw [references, references, h]

theorem computed_congr {t : Sheet} (formula : t.formula? p = s.formula? p)
    (operators : t.operators = s.operators) (values : ∀ q, s.Feeds q p → t.value q = s.value q) :
    t.computed p = s.computed p := by
  unfold computed
  rw [formula, operators]
  cases h : s.formula? p with
  | none => rfl
  | some f =>
    refine f.tree.value_congr fun q hq => values q ?_
    rwa [Feeds, references_eq h]

theorem mem_dependents : x ∈ s.dependents p ↔ x ∈ (s.cell p).dependents := by
  rw [dependents, Std.ExtTreeSet.mem_toList]

theorem cell_of_not_mem (h : p ∉ s.cells) : s.cell p = .empty := by
  rw [cell, Std.ExtTreeMap.getElem?_eq_none h]; rfl

theorem not_mem_empty_dependents : x ∉ Cell.empty.dependents := Std.ExtTreeSet.not_mem_empty

theorem mem_of_mem_dependents (h : x ∈ s.dependents p) : p ∈ s.cells := by
  refine Decidable.byContradiction fun absent => ?_
  rw [mem_dependents, cell_of_not_mem absent] at h
  exact not_mem_empty_dependents h

theorem mem_of_formula? {f : Formula} (h : s.formula? p = some f) : p ∈ s.cells := by
  refine Decidable.byContradiction fun absent => ?_
  rw [formula?, cell_of_not_mem absent] at h
  cases h

theorem getElem?_of_mem (h : p ∈ s.cells) : s.cells[p]? = some (s.cell p) := by
  obtain ⟨c, hc⟩ := Option.isSome_iff_exists.mp (Std.ExtTreeMap.mem_iff_isSome_getElem?.mp h)
  rw [cell, hc]
  rfl

/-! ## Changing one record -/

section
variable {f : Cell → Cell}

theorem mem_update : q ∈ (s.update p f).cells ↔ q = p ∨ q ∈ s.cells := by
  rw [update, Std.ExtTreeMap.mem_insert, Std.LawfulEqCmp.compare_eq_iff_eq, eq_comm]

theorem cell_update : (s.update p f).cell q = if p = q then f (s.cell p) else s.cell q := by
  rw [cell, cells_update]
  split <;> rfl

theorem mem_adjust : q ∈ (s.adjust p f).cells ↔ q ∈ s.cells := by
  simp only [adjust, Std.ExtTreeMap.mem_modify]

theorem cell_adjust :
    (s.adjust p f).cell q = if p = q ∧ p ∈ s.cells then f (s.cell p) else s.cell q := by
  rw [cell, cells_adjust]
  by_cases same : p = q
  · subst same
    by_cases hp : p ∈ s.cells
    · simp [cell, hp]
    · simp [cell, hp]
  · simp only [same, false_and, if_false, cell]

end

/-! ## Linking -/

section
variable {targets : List Position}

theorem link_frame (s : Sheet) (p : Position) (targets : List Position) :
    (s.link p targets).operators = s.operators ∧
      (∀ q, (s.link p targets).formula? q = s.formula? q) ∧
      ∀ q, (s.link p targets).value q = s.value q := by
  unfold link
  induction targets generalizing s with
  | nil => exact ⟨rfl, fun _ => rfl, fun _ => rfl⟩
  | cons t targets ih =>
    obtain ⟨operators, formula, value⟩ := ih (s.update t _)
    refine ⟨operators, fun q => ?_, fun q => ?_⟩
    · rw [List.foldl_cons, formula, formula?, cell_update]
      split
      · next same => subst same; rfl
      · rfl
    · rw [List.foldl_cons, value, Sheet.value, cell_update]
      split
      · next same => subst same; rfl
      · rfl

theorem mem_link : q ∈ (s.link p targets).cells ↔ q ∈ s.cells ∨ q ∈ targets := by
  unfold link
  induction targets generalizing s with
  | nil => simp
  | cons t targets ih =>
    rw [List.foldl_cons, ih, mem_update, List.mem_cons]
    tauto

theorem mem_dependents_link :
    x ∈ (s.link p targets).dependents q ↔ x ∈ s.dependents q ∨ (x = p ∧ q ∈ targets) := by
  unfold link
  induction targets generalizing s with
  | nil => simp
  | cons t targets ih =>
    rw [List.foldl_cons, ih, mem_dependents, cell_update, List.mem_cons]
    split
    · next same =>
      subst same
      rw [Links.mem_insert_iff, ← mem_dependents]
      tauto
    · next other =>
      rw [← mem_dependents]
      have : q ≠ t := fun same => other same.symm
      tauto

theorem unlink_frame (s : Sheet) (p : Position) :
    (s.unlink p).operators = s.operators ∧ (∀ q, (s.unlink p).formula? q = s.formula? q) ∧
      (∀ q, (s.unlink p).value q = s.value q) ∧ ∀ q, q ∈ (s.unlink p).cells ↔ q ∈ s.cells := by
  unfold unlink
  generalize s.references p = targets
  induction targets generalizing s with
  | nil => exact ⟨rfl, fun _ => rfl, fun _ => rfl, fun _ => .rfl⟩
  | cons t targets ih =>
    obtain ⟨operators, formula, value, mem⟩ := ih (s.adjust t _)
    refine ⟨operators, fun q => ?_, fun q => ?_, fun q => (mem q).trans mem_adjust⟩
    · rw [List.foldl_cons, formula, formula?, cell_adjust]
      split
      · next same => rw [← same.1]; rfl
      · rfl
    · rw [List.foldl_cons, value, Sheet.value, cell_adjust]
      split
      · next same => rw [← same.1]; rfl
      · rfl

theorem mem_dependents_unlink :
    x ∈ (s.unlink p).dependents q ↔ x ∈ s.dependents q ∧ ¬ (x = p ∧ s.Feeds q p) := by
  unfold unlink Feeds
  generalize s.references p = targets
  induction targets generalizing s with
  | nil => simp
  | cons t targets ih =>
    rw [List.foldl_cons, ih, mem_dependents, cell_adjust, List.mem_cons]
    split
    · next same =>
      obtain ⟨rfl, -⟩ := same
      rw [Std.ExtTreeSet.mem_erase, Ne, Std.LawfulEqCmp.compare_eq_iff_eq, ← mem_dependents]
      tauto
    · next other =>
      rw [← mem_dependents]
      constructor
      · intro holds
        obtain ⟨hx, keep⟩ := holds
        refine ⟨hx, fun ⟨same, mem⟩ => ?_⟩
        rcases mem with rfl | mem
        · exact other ⟨rfl, mem_of_mem_dependents hx⟩
        · exact keep ⟨same, mem⟩
      · intro holds
        obtain ⟨hx, keep⟩ := holds
        exact ⟨hx, fun ⟨same, mem⟩ => keep ⟨same, .inr mem⟩⟩

end

/-! ## Placing and dropping formulas -/

section
variable {f : Formula}

theorem operators_place : (s.place p f).operators = s.operators := (unlink_frame s p).1

theorem formula?_place :
    (s.place p f).formula? q = if p = q then some f else s.formula? q := by
  rw [formula?, place, cell_update]
  split
  · rfl
  · exact (unlink_frame s p).2.1 q

theorem value_place : (s.place p f).value q = s.value q := by
  rw [value, place, cell_update]
  split
  · next same => subst same; exact (unlink_frame s p).2.2.1 p
  · exact (unlink_frame s p).2.2.1 q

theorem mem_dependents_place :
    x ∈ (s.place p f).dependents q ↔ x ∈ s.dependents q ∧ ¬ (x = p ∧ s.Feeds q p) := by
  rw [mem_dependents, place, cell_update]
  split
  · next same => subst same; rw [← mem_dependents, mem_dependents_unlink]
  · rw [← mem_dependents, mem_dependents_unlink]

theorem mem_place : q ∈ (s.place p f).cells ↔ q = p ∨ q ∈ s.cells := by
  rw [place, mem_update, (unlink_frame s p).2.2.2]

theorem feeds_place :
    (s.place p f).Feeds q x ↔ if p = x then q ∈ f.tree.references p else s.Feeds q x := by
  by_cases same : p = x
  · subst same
    rw [Feeds, references_eq (formula?_place.trans (if_pos rfl)), if_pos rfl]
  · rw [Feeds, references_congr (formula?_place.trans (if_neg same)), if_neg same, Feeds]

end

/-- The sheet without the record of `p`, which is unlinked first. -/
def dropped (s : Sheet) (p : Position) : Sheet :=
  { s.unlink p with cells := (s.unlink p).cells.erase p }

theorem cell_dropped : (s.dropped p).cell q = if p = q then .empty else (s.unlink p).cell q := by
  rw [cell, dropped, Std.ExtTreeMap.getElem?_erase]
  simp only [Std.LawfulEqCmp.compare_eq_iff_eq]
  split <;> rfl

theorem mem_dropped : q ∈ (s.dropped p).cells ↔ q ≠ p ∧ q ∈ s.cells := by
  rw [dropped, Std.ExtTreeMap.mem_erase, Ne, Std.LawfulEqCmp.compare_eq_iff_eq, eq_comm,
    (unlink_frame s p).2.2.2]

theorem operators_dropped : (s.dropped p).operators = s.operators := (unlink_frame s p).1

theorem formula?_dropped :
    (s.dropped p).formula? q = if p = q then none else s.formula? q := by
  rw [formula?, cell_dropped]
  split
  · rfl
  · exact (unlink_frame s p).2.1 q

theorem value_dropped : (s.dropped p).value q = if p = q then 0.0 else s.value q := by
  rw [value, cell_dropped]
  split
  · rfl
  · exact (unlink_frame s p).2.2.1 q

theorem mem_dependents_dropped :
    x ∈ (s.dropped p).dependents q ↔ q ≠ p ∧ x ∈ s.dependents q ∧ ¬ (x = p ∧ s.Feeds q p) := by
  rw [mem_dependents, cell_dropped]
  split
  · next same => simp [same, not_mem_empty_dependents]
  · next other =>
    rw [← mem_dependents, mem_dependents_unlink]
    exact ⟨fun h => ⟨fun same => other same.symm, h⟩, And.right⟩

/-! ## Evaluating -/

theorem operators_evaluate : (s.evaluate p).1.operators = s.operators := (link_frame s p _).1

theorem formula?_evaluate : (s.evaluate p).1.formula? q = s.formula? q := by
  rw [formula?, evaluate, cell_adjust]
  split
  · next same => rw [← same.1]; exact (link_frame s p _).2.1 p
  · exact (link_frame s p _).2.1 q

theorem feeds_evaluate : (s.evaluate p).1.Feeds q x ↔ s.Feeds q x := by
  rw [Feeds, references_congr formula?_evaluate, Feeds]

theorem mem_evaluate : q ∈ (s.evaluate p).1.cells ↔ q ∈ s.cells ∨ s.Feeds q p := by
  rw [evaluate, mem_adjust, mem_link, Feeds]

theorem mem_dependents_evaluate :
    x ∈ (s.evaluate p).1.dependents q ↔ x ∈ s.dependents q ∨ (x = p ∧ s.Feeds q p) := by
  rw [mem_dependents, evaluate, cell_adjust]
  split
  · next same => rw [← same.1, Feeds, ← mem_dependents_link, mem_dependents]
  · rw [← mem_dependents, mem_dependents_link, Feeds]

/-- The evaluated cell has the value its formula came to. Without a record it is worth zero before
and after. -/
theorem value_evaluate :
    (s.evaluate p).1.value q = if p = q then s.computed p else s.value q := by
  have linked := (link_frame s p (s.references p)).2.2
  rw [value, evaluate, cell_adjust]
  by_cases same : p = q
  · subst same
    by_cases hp : p ∈ (s.link p (s.references p)).cells
    · rw [if_pos ⟨rfl, hp⟩, if_pos rfl]; rfl
    · have absent : p ∉ s.cells := fun h => hp (mem_link.mpr (.inl h))
      have blank : s.formula? p = none := by rw [formula?, cell_of_not_mem absent]; rfl
      rw [if_neg (fun h => hp h.2), if_pos rfl, computed, blank, cell_of_not_mem hp]
      rfl
  · rw [if_neg (fun h => same h.1), if_neg same]
    exact linked q

/-! ## Rows of evaluations -/

/-- What a fold carries along does not change what it does with the rest. -/
theorem fst_foldl_congr {α β γ : Type} {f : α × β → γ → α × β}
    (hf : ∀ a b x, a.1 = b.1 → (f a x).1 = (f b x).1) (xs : List γ) :
    ∀ a b, a.1 = b.1 → (xs.foldl f a).1 = (xs.foldl f b).1 := by
  induction xs with
  | nil => exact fun _ _ same => same
  | cons x xs ih => exact fun a b same => ih _ _ (hf a b x same)

theorem evaluateEach_cons (s : Sheet) (p : Position) (cells : List Position) :
    (s.evaluateEach (p :: cells)).1 = ((s.evaluate p).1.evaluateEach cells).1 := by
  refine fst_foldl_congr (fun a b q same => ?_) cells _ _ rfl
  show (a.1.evaluate q).1 = (b.1.evaluate q).1
  rw [same]

variable {cells : List Position}

theorem operators_evaluateEach : (s.evaluateEach cells).1.operators = s.operators := by
  induction cells generalizing s with
  | nil => rfl
  | cons p cells ih => rw [evaluateEach_cons, ih, operators_evaluate]

theorem formula?_evaluateEach : (s.evaluateEach cells).1.formula? q = s.formula? q := by
  induction cells generalizing s with
  | nil => rfl
  | cons p cells ih => rw [evaluateEach_cons, ih, formula?_evaluate]

theorem feeds_evaluateEach : (s.evaluateEach cells).1.Feeds q x ↔ s.Feeds q x := by
  rw [Feeds, references_congr formula?_evaluateEach, Feeds]

theorem mem_evaluateEach :
    q ∈ (s.evaluateEach cells).1.cells ↔ q ∈ s.cells ∨ ∃ p ∈ cells, s.Feeds q p := by
  induction cells generalizing s with
  | nil => simp [evaluateEach]
  | cons p cells ih =>
    rw [evaluateEach_cons, ih, mem_evaluate]
    simp only [feeds_evaluate, List.mem_cons, exists_eq_or_imp, or_assoc]

theorem mem_dependents_evaluateEach :
    x ∈ (s.evaluateEach cells).1.dependents q ↔ x ∈ s.dependents q ∨ (x ∈ cells ∧ s.Feeds q x) := by
  induction cells generalizing s with
  | nil => simp [evaluateEach]
  | cons p cells ih =>
    rw [evaluateEach_cons, ih, mem_dependents_evaluate, feeds_evaluate, List.mem_cons]
    constructor
    · intro holds
      rcases holds with (hx | ⟨rfl, feeds⟩) | ⟨hx, feeds⟩
      · exact .inl hx
      · exact .inr ⟨.inl rfl, feeds⟩
      · exact .inr ⟨.inr hx, feeds⟩
    · intro holds
      rcases holds with hx | ⟨rfl | hx, feeds⟩
      · exact .inl (.inl hx)
      · exact .inl (.inr ⟨rfl, feeds⟩)
      · exact .inr ⟨hx, feeds⟩

theorem evaluateEach_concat (s : Sheet) (cells : List Position) (p : Position) :
    s.evaluateEach (cells ++ [p]) =
      (((s.evaluateEach cells).1.evaluate p).1,
        (s.evaluateEach cells).2.insert p ((s.evaluateEach cells).1.computed p)) := by
  rw [evaluateEach, List.foldl_append]
  rfl

/-- The updates of a row of evaluations are the values that its cells have in the end. -/
theorem getElem?_evaluateEach :
    (s.evaluateEach cells).2[q]? =
      if q ∈ cells then some ((s.evaluateEach cells).1.value q) else none := by
  induction cells using List.reverseRecOn with
  | nil => rfl
  | append_singleton cells p ih =>
    simp only [evaluateEach_concat, Std.ExtTreeMap.getElem?_insert,
      Std.LawfulEqCmp.compare_eq_iff_eq, value_evaluate, ih, List.mem_append, List.mem_singleton]
    by_cases same : p = q
    · simp [same]
    · simp [same, Ne.symm same]

theorem value_evaluateEach_of_not_mem (h : q ∉ cells) :
    (s.evaluateEach cells).1.value q = s.value q := by
  induction cells generalizing s with
  | nil => rfl
  | cons p cells ih =>
    rw [List.mem_cons, not_or] at h
    rw [evaluateEach_cons, ih h.2, value_evaluate, if_neg (Ne.symm h.1)]

end Sheet

end Worksheet
