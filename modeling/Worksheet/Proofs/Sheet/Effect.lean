import Worksheet.Proofs.Sheet.Circular

/-!
# What an entry changes

An entry gives one cell another formula. The cell and all that depend on it, near or far, get the
values that the updates report; the cell comes and goes as a dependent of others; and cells that its
formula refers to get empty records if they have none. Everything else stays (`Entered`).

The cascade follows links, and those of the new formula are only made while it runs. It still comes
to every cell that depends on the entered one, because no path from that cell leads back to it.

Results:
* `Placed.getElem?_recompute`, `Placed.value_recompute`, `Placed.mem_recompute`: what a cascade
  reports, which values it keeps, and which records there are after it.
* `Settled.entered`: what a formula that closes no cycle changes in a settled sheet.
* `entered_edits`: what every entry that is not refused changes after a history.
-/
namespace Worksheet.Sheet

open Relation

variable {s t : Sheet} {p q : Position} {f : Formula} {v : Float} {tree : Expr}
  {cell text : String} {pending : List Position} {updates : Updates}

/-! ## Cascades -/

theorem feeds_recompute (s : Sheet) (p : Position) : (s.recompute p).1.Feeds = s.Feeds := by
  funext a b
  exact propext feeds_evaluateEach

namespace Placed

/-- The links from the entered cell lead to the cells that depend on it by their formulas. -/
theorem reaches_iff (h : s.Placed p pending) :
    s.links.Reaches p q ↔ ReflTransGen s.Feeds p q := by
  constructor
  · exact fun path => ReflTransGen.mono h.sound _ _ path
  · intro path
    induction path with
    | refl => exact ReflTransGen.refl
    | tail _ feeds ih => exact ReflTransGen.tail ih (h.leads_of_feeds ih feeds)

theorem mem_cascade_iff (h : s.Placed p pending) :
    q ∈ s.links.cascade p ↔ ReflTransGen s.Feeds p q :=
  (Links.mem_cascade_iff h.links_acyclic).trans h.reaches_iff

/-- A cascade reports the cell and all that depend on it, with the values that they have then. -/
theorem getElem?_recompute (h : s.Placed p pending) :
    (s.recompute p).2[q]? = some v ↔
      ReflTransGen s.Feeds p q ∧ (s.recompute p).1.value q = v := by
  rw [Sheet.recompute, getElem?_evaluateEach, Option.ite_none_right_eq_some, Option.some.injEq,
    h.mem_cascade_iff]

theorem mem_updates (h : s.Placed p pending) :
    q ∈ (s.recompute p).2 ↔ ReflTransGen s.Feeds p q := by
  simp only [Std.ExtTreeMap.mem_iff_isSome_getElem?, Option.isSome_iff_exists,
    h.getElem?_recompute, exists_and_left, exists_eq', and_true]

theorem value_recompute (h : s.Placed p pending) (apart : ¬ ReflTransGen s.Feeds p q) :
    (s.recompute p).1.value q = s.value q :=
  value_evaluateEach_of_not_mem (mt h.mem_cascade_iff.mp apart)

/-- A cascade makes records for the cells that the formulas of its cells refer to. -/
theorem mem_recompute (h : s.Placed p pending) :
    q ∈ (s.recompute p).1.cells ↔
      q ∈ s.cells ∨ ∃ a, ReflTransGen s.Feeds p a ∧ s.Feeds q a := by
  simp only [Sheet.recompute, mem_evaluateEach, h.mem_cascade_iff]

end Placed

/-- Which formula a cell has makes no difference to which cells depend on it. -/
theorem reaches_place_iff :
    ReflTransGen (s.place p f).Feeds p q ↔ ReflTransGen s.Feeds p q := by
  have same (a b : Position) (hb : b ≠ p) : (s.place p f).Feeds a b ↔ s.Feeds a b := by
    rw [feeds_place, if_neg (Ne.symm hb)]
  exact ⟨Acyclic.reaches_of_redirect fun a b hb => (same a b hb).mp,
    Acyclic.reaches_of_redirect fun a b hb => (same a b hb).mpr⟩

/-! ## Entries -/

/-- The sheet `t` and the updates are what comes of `s` when the formula `f` is entered for `p`. -/
structure Entered (s : Sheet) (p : Position) (f : Formula) (t : Sheet) (updates : Updates) :
    Prop where
  /-- One cell gets the formula, the others keep theirs. -/
  formula : ∀ q, t.formula? q = if p = q then some f else s.formula? q
  /-- The updates are the new values of the cell and of all that depend on it, near or far. -/
  updated : ∀ q v, updates[q]? = some v ↔ (q = p ∨ TransGen t.Feeds p q) ∧ t.value q = v
  /-- The same cells depended on it before. -/
  dependent : ∀ q, TransGen t.Feeds p q ↔ TransGen s.Feeds p q
  /-- The other cells keep their values. -/
  kept : ∀ q, q ∉ updates → t.value q = s.value q
  /-- The cell is a dependent of the cells that the formula refers to, and of no others. -/
  linked : ∀ q, p ∈ t.dependents q ↔ q ∈ f.tree.references p
  /-- The other dependents of every cell stay. -/
  links : ∀ q x, x ≠ p → (x ∈ t.dependents q ↔ x ∈ s.dependents q)
  /-- No record is lost, and there are new ones at most for the cell and those it refers to. -/
  recorded : ∀ q, q ∈ t.cells ↔ q ∈ s.cells ∨ q = p ∨ q ∈ f.tree.references p
  /-- A new record of a cell that the formula refers to is empty but for this one dependent. -/
  created : ∀ q, q ∉ s.cells → q ∈ f.tree.references p →
    t.cells[q]? = some ⟨0.0, none, (∅ : PositionSet).insert p⟩

theorem Settled.mem_of_feeds (h : s.Settled) (feeds : s.Feeds p q) : p ∈ s.cells :=
  mem_of_mem_dependents (h.mem_dependents_iff.mpr feeds)

theorem Settled.cell_of_bare (h : t.Settled) (bare : t.formula? q = none) :
    t.cell q = ⟨0.0, none, (t.cell q).dependents⟩ := by
  have value : t.value q = 0.0 := by rw [h.current q List.not_mem_nil, computed, bare]
  calc t.cell q = ⟨t.value q, t.formula? q, (t.cell q).dependents⟩ := rfl
    _ = ⟨0.0, none, (t.cell q).dependents⟩ := by rw [value, bare]

/-- The record of a cell without a formula that the formula of one cell refers to. -/
theorem Settled.getElem?_of_bare (h : t.Settled) (bare : t.formula? q = none)
    (only : ∀ x, t.Feeds q x ↔ x = p) :
    t.cells[q]? = some ⟨0.0, none, (∅ : PositionSet).insert p⟩ := by
  have dependents : (t.cell q).dependents = (∅ : PositionSet).insert p := by
    refine Std.ExtTreeSet.ext_mem fun x => ?_
    rw [← mem_dependents, h.mem_dependents_iff, only, Links.mem_insert_iff]
    exact (or_iff_left Std.ExtTreeSet.not_mem_empty).symm
  rw [getElem?_of_mem (h.mem_of_feeds ((only p).mpr rfl)), h.cell_of_bare bare, dependents]

theorem formula?_recompute_place : ((s.place p f).recompute p).1.formula? q =
    if p = q then some f else s.formula? q :=
  formula?_evaluateEach.trans formula?_place

theorem feeds_recompute_place {a b : Position} : ((s.place p f).recompute p).1.Feeds a b ↔
    if p = b then a ∈ f.tree.references p else s.Feeds a b :=
  feeds_evaluateEach.trans feeds_place

/-- The records after an entry. A cell that another formula refers to has one already. -/
theorem Settled.mem_recompute_place (h : s.Settled) (placed : (s.place p f).Placed p []) :
    q ∈ ((s.place p f).recompute p).1.cells ↔
      q ∈ s.cells ∨ q = p ∨ q ∈ f.tree.references p := by
  rw [placed.mem_recompute, mem_place]
  constructor
  · intro recorded
    rcases recorded with (rfl | known) | ⟨a, -, feeds⟩
    · exact .inr (.inl rfl)
    · exact .inl known
    · rw [feeds_place] at feeds
      split at feeds
      · exact .inr (.inr feeds)
      · exact .inl (h.mem_of_feeds feeds)
  · intro recorded
    rcases recorded with known | rfl | mem
    · exact .inl (.inr known)
    · exact .inl (.inl rfl)
    · exact .inr ⟨p, .refl, by rwa [feeds_place, if_pos rfl]⟩

/-- The record that an entry makes for a cell which its formula refers to. -/
theorem Settled.getElem?_created (h : s.Settled)
    (settled : ((s.place p f).recompute p).1.Settled) (absent : q ∉ s.cells)
    (mem : q ∈ f.tree.references p) :
    ((s.place p f).recompute p).1.cells[q]? = some ⟨0.0, none, (∅ : PositionSet).insert p⟩ := by
  have apart : p ≠ q := by
    rintro rfl
    exact settled.acyclic.not_self p (feeds_recompute_place.mpr (by rwa [if_pos rfl]))
  have bare : s.formula? q = none :=
    Option.eq_none_iff_forall_ne_some.mpr fun g hg => absent (mem_of_formula? hg)
  refine settled.getElem?_of_bare (formula?_recompute_place.trans (by rw [if_neg apart, bare]))
    fun x => ?_
  rw [feeds_recompute_place]
  split
  · next entered => exact ⟨fun _ => entered.symm, fun _ => mem⟩
  · next other =>
    exact ⟨fun feeds => absurd (h.mem_of_feeds feeds) absent,
      fun entered => absurd entered.symm other⟩

/-- What a formula that closes no cycle changes in a settled sheet. -/
theorem Settled.entered (h : s.Settled) (onGrid : p.OnGrid) (parsed : f.Parsed p)
    (free : s.clash? p f.tree = none) :
    s.Entered p f ((s.place p f).recompute p).1 ((s.place p f).recompute p).2 := by
  have placed := h.placed onGrid parsed free
  have settled := placed.settled
  have dependent (q : Position) : TransGen ((s.place p f).recompute p).1.Feeds p q ↔
      TransGen s.Feeds p q := by
    rw [settled.acyclic.transGen_iff, h.acyclic.transGen_iff, feeds_recompute, reaches_place_iff]
  refine ⟨fun q => formula?_recompute_place, fun q v => ?_, dependent, fun q hq => ?_, fun q => ?_,
    fun q x hx => ?_, fun q => h.mem_recompute_place placed, fun q absent mem => ?_⟩
  · rw [placed.getElem?_recompute, feeds_recompute, reflTransGen_iff_eq_or_transGen]
  · rw [placed.mem_updates] at hq
    rw [placed.value_recompute hq, value_place]
  · rw [settled.mem_dependents_iff, feeds_recompute_place, if_pos rfl]
  · rw [settled.mem_dependents_iff, h.mem_dependents_iff, feeds_recompute_place,
      if_neg (Ne.symm hx)]
  · exact h.getElem?_created settled absent mem

/-- An entry that is not refused places a formula that clashes with nothing, and recomputes its
cell. -/
theorem exists_placed_of_enter (ok : (s.enter cell text).2 = .ok updates) :
    ∃ p tree, Position.read cell = .ok p ∧ Expr.parse p text = .ok tree ∧ s.clash? p tree = none ∧
      s.enter cell text = (((s.place p ⟨Text.strip text, tree⟩).recompute p).1,
        .ok ((s.place p ⟨Text.strip text, tree⟩).recompute p).2) := by
  unfold Sheet.enter at ok ⊢
  cases named : readCell cell with
  | error e => rw [named] at ok; cases ok
  | ok p =>
    simp only [named] at ok ⊢
    rcases enterAt_cases s p text with ⟨e, failed⟩ | ⟨tree, parsed, free, entered⟩
    · rw [failed] at ok; cases ok
    · exact ⟨p, tree, read_of_readCell named, parsed, free, entered⟩

/-- **Effect of an entry.** After every history, an entry that is not refused changes the formula of
the cell that it names, the values of the cells that depend on it, the links of its formula, and
nothing else, and it returns the new values. -/
theorem entered_edits (name : String) (operators : Op → List Float → Float) (es : List Edit)
    (ok : (((blank name operators).edits es).enter cell text).2 = .ok updates) :
    let s := (blank name operators).edits es
    ∃ p tree, Position.read cell = .ok p ∧ Expr.parse p text = .ok tree ∧
      s.Entered p ⟨Text.strip text, tree⟩ (s.enter cell text).1 updates := by
  intro s
  have settled : s.Settled := settled_edits name operators es
  change (s.enter cell text).2 = .ok updates at ok
  unfold Sheet.enter at ok ⊢
  cases named : readCell cell with
  | error e => rw [named] at ok; cases ok
  | ok p =>
    simp only [named] at ok ⊢
    rcases enterAt_cases s p text with ⟨e, failed⟩ | ⟨tree, parsed, free, entered⟩
    · rw [failed] at ok; cases ok
    · rw [entered] at ok ⊢
      cases ok
      exact ⟨p, tree, read_of_readCell named, parsed,
        settled.entered (onGrid_of_readCell named) (.strip parsed) free⟩

theorem not_feedsBy_blank (name : String) (operators : Op → List Float → Float) :
    ¬ FeedsBy (blank name operators).trees p q := by
  intro feeds
  obtain ⟨tree, none, -⟩ := feeds
  rw [trees_blank] at none
  cases none

/-- An entry for a cell that no formula refers to is refused only if it refers to its own cell. -/
theorem Settled.enter_unread (h : s.Settled) (named : Position.read cell = .ok p)
    (parsed : Expr.parse p text = .ok tree) (unread : ∀ q, ¬ FeedsBy s.trees p q)
    (other : p ∉ tree.references p) :
    (s.enter cell text).1.trees = Function.update s.trees p (some tree) := by
  rcases h.enter_cases named parsed with ⟨-, -, trees⟩ | ⟨-, via, found, -⟩
  · exact trees
  · obtain ⟨mem, rfl | path⟩ := h.of_clash? found
    · exact absurd mem other
    · obtain ⟨q, feeds, -⟩ := TransGen.head'_iff.mp path
      exact absurd feeds (unread q)

/-- A formula that refers to no other cells than ones whose formulas refer to nothing closes no
cycle. -/
theorem Settled.acyclic_of_bare (h : s.Settled)
    (bare : ∀ q ∈ tree.references p, q ≠ p ∧ ∀ a, ¬ s.Feeds a q) :
    Acyclic (FeedsBy (Function.update s.trees p (some tree))) := by
  rw [← h.clash?_eq_none_iff_acyclic, Option.eq_none_iff_forall_ne_some]
  intro via found
  obtain ⟨mem, same | path⟩ := h.of_clash? found
  · exact (bare via mem).1 same
  · obtain ⟨a, -, feeds⟩ := TransGen.tail'_iff.mp path
    exact (bare via mem).2 a (feedsBy_trees.mp feeds)

theorem Settled.exists_enter_ok (h : s.Settled) (named : Position.read cell = .ok p)
    (parsed : Expr.parse p text = .ok tree)
    (bare : ∀ q ∈ tree.references p, q ≠ p ∧ ∀ a, ¬ s.Feeds a q) :
    ∃ updates, (s.enter cell text).2 = .ok updates := by
  rcases h.enter_cases named parsed with ⟨-, ok, -⟩ | ⟨cycle, -⟩
  · exact ok
  · exact absurd (h.acyclic_of_bare bare) cycle

theorem feeds_halved : ((blank "sheet" Op.apply).edits [.enter "b1" "-a$1 / 2"]).Feeds p q ↔
    p = ⟨0, 0⟩ ∧ q = ⟨1, 0⟩ := by
  have b1 : Position.read "b1" = .ok ⟨1, 0⟩ := by decide +kernel
  have halved : ((Expr.parse ⟨1, 0⟩ "-a$1 / 2").toOption.any fun tree =>
      tree.references ⟨1, 0⟩ = [⟨0, 0⟩]) = true := by decide +kernel
  obtain ⟨half, parsed, halved⟩ := exists_ok_of_any halved
  have targets : half.references ⟨1, 0⟩ = [⟨0, 0⟩] := of_decide_eq_true halved
  have trees : ((blank "sheet" Op.apply).edits [.enter "b1" "-a$1 / 2"]).trees =
      Function.update (blank "sheet" Op.apply).trees ⟨1, 0⟩ (some half) :=
    (settled_blank "sheet" Op.apply).enter_unread b1 parsed
      (fun q => not_feedsBy_blank "sheet" Op.apply) (by rw [targets]; decide)
  rw [← feedsBy_trees, trees, feedsBy_update, targets, List.mem_singleton]
  split
  · next entered => exact (and_iff_left entered).symm
  · next other => exact iff_of_false (not_feedsBy_blank "sheet" Op.apply) fun both => other both.2

/-- An entry for a cell that another depends on. It makes a record for a third. -/
theorem entered_under_b1 :
    let s := (blank "sheet" Op.apply).edits [.enter "b1" "-a$1 / 2"]
    ∃ updates, (s.enter "$A$1" "7 + c2").2 = .ok updates ∧ ⟨1, 0⟩ ∈ updates ∧
      ∃ p tree, Position.read "$A$1" = .ok p ∧ Expr.parse p "7 + c2" = .ok tree ∧
        s.Entered p ⟨Text.strip "7 + c2", tree⟩ (s.enter "$A$1" "7 + c2").1 updates := by
  intro s
  have a1 : Position.read "$A$1" = .ok ⟨0, 0⟩ := by decide +kernel
  have added : ((Expr.parse ⟨0, 0⟩ "7 + c2").toOption.any fun tree =>
      tree.references ⟨0, 0⟩ = [⟨2, 1⟩]) = true := by decide +kernel
  obtain ⟨sum, parsed, added⟩ := exists_ok_of_any added
  have targets : sum.references ⟨0, 0⟩ = [⟨2, 1⟩] := of_decide_eq_true added
  have settled : s.Settled := settled_edits "sheet" Op.apply _
  have accepted : ∃ updates, (s.enter "$A$1" "7 + c2").2 = .ok updates := by
    rcases settled.enter_cases a1 parsed with ⟨-, ok, -⟩ | ⟨-, via, found, -⟩
    · exact ok
    · obtain ⟨mem, rfl | path⟩ := settled.of_clash? found
      · rw [targets] at mem
        exact absurd mem (by decide)
      · rw [targets, List.mem_singleton] at mem
        obtain ⟨_, -, feeds⟩ := TransGen.tail'_iff.mp path
        have reads := (feeds_halved.mp (feedsBy_trees.mp feeds)).2
        rw [mem] at reads
        exact absurd reads (by decide)
  obtain ⟨updates, ok⟩ := accepted
  have effect := entered_edits "sheet" Op.apply [.enter "b1" "-a$1 / 2"] ok
  refine ⟨updates, ok, ?_, effect⟩
  obtain ⟨p, tree, named, -, entered⟩ := effect
  obtain rfl : p = ⟨0, 0⟩ := Except.ok.inj (named.symm.trans a1)
  have step : s.Feeds ⟨0, 0⟩ ⟨1, 0⟩ := feeds_halved.mpr ⟨rfl, rfl⟩
  have updated := (entered.updated ⟨1, 0⟩ _).mpr
    ⟨.inr ((entered.dependent _).mpr (.single step)), rfl⟩
  exact Std.ExtTreeMap.mem_iff_isSome_getElem?.mpr (Option.isSome_of_eq_some updated)

end Worksheet.Sheet
