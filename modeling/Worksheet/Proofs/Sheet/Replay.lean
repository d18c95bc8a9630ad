import Worksheet.Proofs.Sheet.Dump

/-!
# Loading a dump again

While formulas of a settled sheet are entered into another one, in any order, that sheet stays a
part of the first: settled, with formulas of the first sheet only, and with no record that is not
needed. In a part no formula of the whole can close a cycle, so none is refused. When all formulas
are entered, the part knows of every cell what the whole does.

Results:
* `PartOf.enter`: a formula of the whole is entered into a part.
* `PartOf.load`: so are the formulas of any list, in its order.
* `PartOf.load_dumpPairs`: by the dump of the whole a part becomes like it.
* `load_dumpPairs_perm`: a dump in any order, loaded into a new sheet, gives back the dumped one.
-/
namespace Worksheet

/-- A record that is needed: it has a formula or dependents. -/
def Cell.isUsed (c : Cell) : Bool := c.formula.isSome || !c.dependents.isEmpty

namespace Sheet

open Relation

variable {s t : Sheet} {p q : Position} {f : Formula} {pairs : List (String × String)}

/-! ## Parts -/

/-- The sheet `t` is settled, its formulas are formulas of `s`, and each of its records has a
formula or dependents. -/
structure PartOf (s t : Sheet) : Prop where
  settled : t.Settled
  operators : t.operators = s.operators
  formulas : ∀ p f, t.formula? p = some f → s.formula? p = some f
  used : ∀ p ∈ t.cells, t.formula? p ≠ none ∨ t.dependents p ≠ []

namespace PartOf

theorem feeds (h : s.PartOf t) (feeds : t.Feeds p q) : s.Feeds p q := by
  obtain ⟨f, hf, mem⟩ := feeds_iff.mp feeds
  exact feeds_iff.mpr ⟨f, h.formulas q f hf, mem⟩

/-- A formula of the whole clashes with nothing in a part. -/
theorem clash?_eq_none (hs : s.Settled) (h : s.PartOf t) (hf : s.formula? p = some f) :
    t.clash? p f.tree = none := clash?_eq_none_iff.mpr fun q hq reach => by
  have back : ReflTransGen s.Feeds p q :=
    ReflTransGen.mono (fun _ _ => h.feeds) _ _ (h.settled.feeds_of_reaches reach)
  exact hs.acyclic.not_reaches_back (feeds_iff.mpr ⟨f, hf, hq⟩) back

theorem enterAt (hs : s.Settled) (h : s.PartOf t) (hf : s.formula? p = some f) :
    t.enterAt p f.text = (((t.place p f).recompute p).1, .ok ((t.place p f).recompute p).2) := by
  obtain ⟨parsed, stripped⟩ := hs.parsed p f hf
  rw [enterAt_eq parsed (clash?_eq_none hs h hf), stripped]

theorem enter_eq (hs : s.Settled) (h : s.PartOf t) (hf : s.formula? p = some f) :
    t.enter p.name f.text = (((t.place p f).recompute p).1, .ok ((t.place p f).recompute p).2) := by
  rw [enter_of_read (Position.read_name (hs.onGrid p (mem_of_formula? hf)))]
  exact enterAt hs h hf

/-- Entering a formula of the whole is not refused, adds the formula, and leaves a part. -/
theorem enter (hs : s.Settled) (h : s.PartOf t) (hf : s.formula? p = some f) :
    ∃ t' updates, t.enter p.name f.text = (t', .ok updates) ∧ s.PartOf t' ∧
      ∀ q, t'.formula? q = if p = q then some f else t.formula? q := by
  have formula (q : Position) : ((t.place p f).recompute p).1.formula? q =
      if p = q then some f else t.formula? q := formula?_evaluateEach.trans formula?_place
  have grown {q : Position} {g : Formula} (hg : t.formula? q = some g) :
      ((t.place p f).recompute p).1.formula? q = some g := by
    rw [formula]
    split
    · next same => rw [← hf, ← h.formulas q g hg, same]
    · exact hg
  have settled : ((t.place p f).recompute p).1.Settled := by
    have := h.settled.enterAt (hs.onGrid p (mem_of_formula? hf)) f.text
    rwa [enterAt hs h hf] at this
  refine ⟨_, _, enter_eq hs h hf, ⟨settled, ?_, fun q g hg => ?_, fun q hq => ?_⟩,
    formula⟩
  · rw [operators_recompute, operators_place, h.operators]
  · rw [formula] at hg
    split at hg
    · next same => cases hg; exact same ▸ hf
    · exact h.formulas q g hg
  · have linked {a : Position} (feeds : ((t.place p f).recompute p).1.Feeds q a) :
        ((t.place p f).recompute p).1.dependents q ≠ [] :=
      List.ne_nil_of_mem (settled.mem_dependents_iff.mpr feeds)
    rcases mem_evaluateEach.mp hq with hq | ⟨a, -, feeds⟩
    · rcases mem_place.mp hq with rfl | hq
      · exact .inl (by rw [formula, if_pos rfl]; exact Option.some_ne_none f)
      · rcases h.used q hq with known | depended
        · obtain ⟨g, hg⟩ := Option.ne_none_iff_exists'.mp known
          exact .inl (by rw [grown hg]; exact Option.some_ne_none g)
        · obtain ⟨d, hd⟩ := List.exists_mem_of_ne_nil _ depended
          obtain ⟨g, hg, mem⟩ := feeds_iff.mp (h.settled.mem_dependents_iff.mp hd)
          exact .inr (linked (feeds_iff.mpr ⟨g, grown hg, mem⟩))
    · exact .inr (linked (feeds_evaluateEach.mpr feeds))

/-- Loading formulas of the whole is not refused, adds these formulas, and leaves a part. -/
theorem load (hs : s.Settled) (h : s.PartOf t)
    (drawn : ∀ pair ∈ pairs, ∃ p f, s.formula? p = some f ∧ pair = (p.name, f.text)) :
    (t.load pairs).2 = .ok () ∧ s.PartOf (t.load pairs).1 ∧
      ∀ p f, s.formula? p = some f → t.formula? p = some f ∨ (p.name, f.text) ∈ pairs →
        (t.load pairs).1.formula? p = some f := by
  induction pairs generalizing t with
  | nil => exact ⟨rfl, h, fun p f _ known => known.resolve_right List.not_mem_nil⟩
  | cons pair pairs ih =>
    obtain ⟨p, f, hf, rfl⟩ := drawn pair List.mem_cons_self
    obtain ⟨t', updates, entered, part, formula⟩ := enter hs h hf
    obtain ⟨ok, part, loaded⟩ := ih part fun pair hp => drawn pair (List.mem_cons_of_mem _ hp)
    rw [Sheet.load]
    simp only [entered]
    refine ⟨ok, part, fun q g hg known => loaded q g hg ?_⟩
    rw [formula]
    by_cases same : p = q
    · subst same
      exact .inl (by rw [if_pos rfl, ← hf, hg])
    · rw [if_neg same]
      refine known.imp_right fun mem => (List.mem_cons.mp mem).resolve_left fun head => ?_
      have names : q.name = p.name := congrArg Prod.fst head
      have read := Position.read_name (hs.onGrid q (mem_of_formula? hg))
      rw [names, Position.read_name (hs.onGrid p (mem_of_formula? hf))] at read
      exact same (Except.ok.inj read)

end PartOf

theorem partOf_blank (s : Sheet) (name : String) : s.PartOf (blank name s.operators) where
  settled := settled_blank name s.operators
  operators := rfl
  formulas p f hf := by rw [formula?, cell_blank] at hf; cases hf
  used p hp := absurd hp Std.ExtTreeMap.not_mem_empty

/-! ## Dumps -/

theorem mem_dumpPairs {pair : String × String} :
    pair ∈ s.dumpPairs ↔ ∃ p f, s.formula? p = some f ∧ pair = (p.name, f.text) := by
  simp only [dumpPairs, List.mem_map, Prod.exists, mem_dump, mem_formulas]
  constructor
  · intro holds
    obtain ⟨p, _, ⟨f, hf, rfl⟩, rfl⟩ := holds
    exact ⟨p, f, hf, rfl⟩
  · intro holds
    obtain ⟨p, f, hf, rfl⟩ := holds
    exact ⟨p, f.text, ⟨f, hf, rfl⟩, rfl⟩

theorem isUsed_iff : (s.cell p).isUsed = true ↔ s.formula? p ≠ none ∨ s.dependents p ≠ [] := by
  rw [Cell.isUsed, Bool.or_eq_true, ← formula?, Option.isSome_iff_ne_none, dependents,
    Bool.not_eq_true', ← Std.ExtTreeSet.isEmpty_toList, List.isEmpty_eq_false_iff]

/-- A part with all formulas of the whole has those records of the whole that are used. -/
theorem PartOf.records (h : s.PartOf t) (same : ∀ p, t.cell p = s.cell p) (p : Position) :
    t.cells[p]? = s.cells[p]?.filter Cell.isUsed := by
  by_cases hp : p ∈ t.cells
  · have used : (s.cell p).isUsed = true := by
      rw [← same, isUsed_iff]
      exact h.used p hp
    have known : p ∈ s.cells := by
      rcases isUsed_iff.mp used with known | depended
      · obtain ⟨f, hf⟩ := Option.ne_none_iff_exists'.mp known
        exact mem_of_formula? hf
      · obtain ⟨d, hd⟩ := List.exists_mem_of_ne_nil _ depended
        exact mem_of_mem_dependents hd
    rw [getElem?_of_mem hp, getElem?_of_mem known, same, Option.filter_some, if_pos used]
  · have empty : s.cell p = .empty := by rw [← same, cell_of_not_mem hp]
    rw [Std.ExtTreeMap.getElem?_eq_none hp]
    by_cases known : p ∈ s.cells
    · rw [getElem?_of_mem known, empty]
      rfl
    · rw [Std.ExtTreeMap.getElem?_eq_none known]
      rfl

/-- A part with all formulas of the whole knows what the whole knows. -/
theorem PartOf.agrees (hs : s.Settled) (h : s.PartOf t)
    (all : ∀ p f, s.formula? p = some f → t.formula? p = some f) :
    (∀ p, t.cell p = s.cell p) ∧ t.dump = s.dump := by
  have same (p : Position) : t.formula? p = s.formula? p := by
    cases hf : s.formula? p with
    | some f => exact all p f hf
    | none =>
      cases hg : t.formula? p with
      | none => rfl
      | some g => rw [h.formulas p g hg] at hf; cases hf
  exact ⟨fun p => hs.cell_eq h.settled h.operators same p, hs.dump_eq h.settled same⟩

/-- By the dump of the whole a part becomes like the whole. -/
theorem PartOf.load_dumpPairs (hs : s.Settled) (h : s.PartOf t) :
    (t.load s.dumpPairs).2 = .ok () ∧ (∀ p, (t.load s.dumpPairs).1.cell p = s.cell p) ∧
      (t.load s.dumpPairs).1.dump = s.dump := by
  obtain ⟨ok, part, entered⟩ := h.load hs fun pair => mem_dumpPairs.mp
  exact ⟨ok, part.agrees hs fun p f hf => entered p f hf (.inr (mem_dumpPairs.mpr ⟨p, f, hf, rfl⟩))⟩

theorem query_congr (same : ∀ p, t.cell p = s.cell p) (cell : String) :
    t.query cell = s.query cell := by
  simp only [query, value, formula?, same]

/-- **Replay.** After every history, the pairs of a sheet's dump can be loaded into a new sheet in
any order. None is refused, and the new sheet knows the same of every cell, has the same dump, and
has the same records but for those with neither a formula nor dependents. -/
theorem load_dumpPairs_perm (name name' : String) (operators : Op → List Float → Float)
    (es : List Edit) (pairs : List (String × String))
    (perm : pairs.Perm ((blank name operators).edits es).dumpPairs) :
    let s := (blank name operators).edits es
    let loaded := (blank name' operators).load pairs
    loaded.2 = .ok () ∧ (∀ p, loaded.1.cell p = s.cell p) ∧ loaded.1.dump = s.dump ∧
      ∀ p : Position, loaded.1.cells[p]? = s.cells[p]?.filter Cell.isUsed := by
  intro s loaded
  have hs : s.Settled := settled_edits name operators es
  have start : s.PartOf (blank name' operators) := by
    have := partOf_blank s name'
    rwa [show s.operators = operators from operators_edits _ es] at this
  obtain ⟨ok, part, entered⟩ := start.load hs fun pair hp => mem_dumpPairs.mp (perm.mem_iff.mp hp)
  have same (p : Position) : loaded.1.formula? p = s.formula? p := by
    cases hf : s.formula? p with
    | some f => exact entered p f hf (.inr (perm.mem_iff.mpr (mem_dumpPairs.mpr ⟨p, f, hf, rfl⟩)))
    | none =>
      cases hg : loaded.1.formula? p with
      | none => rfl
      | some g => rw [part.formulas p g hg] at hf; cases hf
  have cells (p : Position) : loaded.1.cell p = s.cell p :=
    hs.cell_eq part.settled part.operators same p
  exact ⟨ok, cells, hs.dump_eq part.settled same, part.records cells⟩

/-- A history in which a formula is replaced, one is refused, and a cell that others refer to is
removed. It leaves a record of `e5` that is not used. -/
def eventful : List Edit :=
  [.enter "b1" "a1 + e5", .enter "a1" "2", .enter "a1" "b1", .enter "c1" "b1 * min(a1, d$4)",
    .enter "b1" "-a1", .remove "b1"]

/-- The dump of that sheet may be loaded backwards. -/
theorem load_reverse_dumpPairs_eventful :
    let s := (blank "sheet" Op.apply).edits eventful
    let loaded := (blank "copy" Op.apply).load s.dumpPairs.reverse
    s.dumpPairs.reverse.Perm s.dumpPairs ∧
      loaded.2 = .ok () ∧ (∀ p, loaded.1.cell p = s.cell p) ∧ loaded.1.dump = s.dump ∧
        ∀ p : Position, loaded.1.cells[p]? = s.cells[p]?.filter Cell.isUsed :=
  ⟨List.reverse_perm _,
    load_dumpPairs_perm "sheet" "copy" Op.apply eventful _ (List.reverse_perm _)⟩

end Sheet

end Worksheet
