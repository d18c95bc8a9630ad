import Worksheet.Proofs.Sheet.Dump
import Worksheet.Proofs.Sheet.Removal

/-!
# Cascades that go by no order

The plainest cascade evaluates a cell, notes its value, and then does the same for each cell that
depends on it, one after the other. It comes to a cell as often as paths lead there, and most of
these times the cell reads values that are still old (`Ripple`).

Where the links are exactly the references of the formulas, such a cascade changes values and
nothing else. A cell that has the value which its formula comes to loses it only when a cell that it
refers to is evaluated, and then its own turn is still to come. So in the end all cells have such
values. There is one sheet of this kind, and the cascade that evaluates every cell once ends in it
as well.

Results:
* `Ripple.current`: the cells that are come to have the values that their formulas come to.
* `exists_ripple`: where no cell depends on itself, such a cascade ends.
* `Placed.ripple_iff`: it ends as the cascade does that evaluates every cell once.
* `ripple_iff_enter_edits`: so does that of every entry after a history.
-/
namespace Worksheet.Sheet

open Relation

variable {s t u w : Sheet} {p q : Position} {f : Formula} {v : Float} {cells : List Position}
  {updates more all : Updates} {cell text : String}

/-- Some cells are evaluated, and after each of them, in the same way, the cells that depend on it.
The updates keep the last value of every cell. -/
inductive Ripple : Sheet → Updates → List Position → Sheet → Updates → Prop
  | done {s : Sheet} {updates : Updates} : Ripple s updates [] s updates
  | next {s t u : Sheet} {updates more all : Updates} {p : Position} {cells : List Position} :
      Ripple (s.evaluate p).1 (updates.insert p (s.evaluate p).2) ((s.evaluate p).1.dependents p)
        t more →
      Ripple t more cells u all → Ripple s updates (p :: cells) u all

/-! ## Sheets that differ in values -/

/-- The two sheets differ in nothing but values. -/
structure Revalued (s t : Sheet) : Prop where
  name : t.name = s.name
  operators : t.operators = s.operators
  formula : ∀ p, t.formula? p = s.formula? p
  recorded : ∀ p, p ∈ t.cells ↔ p ∈ s.cells
  links : ∀ p q, q ∈ t.dependents p ↔ q ∈ s.dependents p

namespace Revalued

theorem refl (s : Sheet) : s.Revalued s := ⟨rfl, rfl, fun _ => rfl, fun _ => .rfl, fun _ _ => .rfl⟩

theorem symm (h : s.Revalued t) : t.Revalued s where
  name := h.name.symm
  operators := h.operators.symm
  formula p := (h.formula p).symm
  recorded p := (h.recorded p).symm
  links p q := (h.links p q).symm

theorem trans (h : s.Revalued t) (h' : t.Revalued u) : s.Revalued u where
  name := h'.name.trans h.name
  operators := h'.operators.trans h.operators
  formula p := (h'.formula p).trans (h.formula p)
  recorded p := (h'.recorded p).trans (h.recorded p)
  links p q := (h'.links p q).trans (h.links p q)

theorem feeds (h : s.Revalued t) : t.Feeds = s.Feeds := by
  funext a b
  rw [Feeds, references_congr (h.formula b), Feeds]

/-- A sheet that differs in values from a settled one is settled if its own values are those that
its formulas come to. -/
theorem settled (h : s.Revalued t) (hs : s.Settled) (current : ∀ q, t.value q = t.computed q) :
    t.Settled where
  onGrid p hp := hs.onGrid p ((h.recorded p).mp hp)
  parsed p f hf := hs.parsed p f ((h.formula p).symm.trans hf)
  sound p q hq := h.feeds ▸ hs.sound p q ((h.links p q).mp hq)
  complete p q feeds :=
    .inl ((h.links p q).mpr (hs.mem_dependents_iff.mpr (h.feeds ▸ feeds)))
  acyclic := h.feeds ▸ hs.acyclic
  current q _ := current q

/-- Two settled sheets do not differ in values alone. -/
theorem eq (h : s.Revalued t) (hs : s.Settled) (ht : t.Settled) : t = s := by
  have cells : t.cells = s.cells := by
    refine Std.ExtTreeMap.ext_getElem? fun q => ?_
    by_cases known : q ∈ s.cells
    · rw [getElem?_of_mem known, getElem?_of_mem ((h.recorded q).mpr known),
        hs.cell_eq ht h.operators h.formula]
    · rw [Std.ExtTreeMap.getElem?_eq_none known,
        Std.ExtTreeMap.getElem?_eq_none (mt (h.recorded q).mp known)]
  calc t = ⟨t.name, t.operators, t.cells⟩ := rfl
    _ = ⟨s.name, s.operators, s.cells⟩ := by rw [h.name, h.operators, cells]
    _ = s := rfl

end Revalued

/-! ## Names -/

theorem name_link (s : Sheet) (p : Position) (targets : List Position) :
    (s.link p targets).name = s.name := by
  unfold link
  induction targets generalizing s with
  | nil => rfl
  | cons t targets ih => exact ih (s.update t _)

theorem name_unlink (s : Sheet) (p : Position) : (s.unlink p).name = s.name := by
  unfold unlink
  generalize s.references p = targets
  induction targets generalizing s with
  | nil => rfl
  | cons t targets ih => exact ih (s.adjust t _)

theorem name_place : (s.place p f).name = s.name := name_unlink s p

theorem name_evaluate : (s.evaluate p).1.name = s.name := name_link s p _

theorem name_evaluateEach : (s.evaluateEach cells).1.name = s.name := by
  induction cells generalizing s with
  | nil => rfl
  | cons p cells ih => rw [evaluateEach_cons, ih, name_evaluate]

/-! ## One evaluation -/

/-- The links of the sheet are exactly the references of its formulas, and these close no cycle. -/
structure Linked (s : Sheet) : Prop where
  mem_dependents_iff : ∀ p q, q ∈ s.dependents p ↔ s.Feeds p q
  acyclic : Acyclic s.Feeds

theorem Revalued.linked (h : s.Revalued t) (hs : s.Linked) : t.Linked where
  mem_dependents_iff p q := by rw [h.links, hs.mem_dependents_iff, h.feeds]
  acyclic := h.feeds ▸ hs.acyclic

namespace Linked

/-- All that an evaluation does to the links and the records has been done. -/
theorem revalued_evaluate (h : s.Linked) (p : Position) : s.Revalued (s.evaluate p).1 where
  name := name_evaluate
  operators := operators_evaluate
  formula _ := formula?_evaluate
  recorded q := by
    rw [mem_evaluate]
    exact or_iff_left_of_imp fun feeds =>
      mem_of_mem_dependents ((h.mem_dependents_iff q p).mpr feeds)
  links a q := by
    rw [mem_dependents_evaluate]
    refine or_iff_left_of_imp fun linked => ?_
    obtain ⟨rfl, feeds⟩ := linked
    exact (h.mem_dependents_iff a q).mpr feeds

theorem evaluate (h : s.Linked) (p : Position) : (s.evaluate p).1.Linked :=
  (h.revalued_evaluate p).linked h

/-- After an evaluation a cell is still to come to, or has the value that its formula comes to, if
it had that before or is the evaluated cell. -/
theorem current_evaluate (h : s.Linked) (before : q = p ∨ s.value q = s.computed q) :
    q ∈ (s.evaluate p).1.dependents p ∨ (s.evaluate p).1.value q = (s.evaluate p).1.computed q := by
  by_cases feeds : s.Feeds p q
  · refine .inl (((h.evaluate p).mem_dependents_iff p q).mpr ?_)
    rwa [(h.revalued_evaluate p).feeds]
  · refine .inr ?_
    rw [computed_evaluate feeds, value_evaluate]
    split
    · next same => rw [same]
    · next other => exact before.resolve_left (Ne.symm other)

end Linked

/-- Noting the value of an evaluated cell leaves all updates at the values that the cells have. -/
theorem reported_evaluate (reported : ∀ q v, updates[q]? = some v → s.value q = v) :
    ∀ q v, (updates.insert p (s.evaluate p).2)[q]? = some v → (s.evaluate p).1.value q = v := by
  intro q v hv
  simp only [Std.ExtTreeMap.getElem?_insert, Std.LawfulEqCmp.compare_eq_iff_eq] at hv
  rw [value_evaluate]
  split at hv
  · next same => rw [if_pos same]; exact Option.some.inj hv
  · next other => rw [if_neg other]; exact reported q v hv

/-! ## Whole ripples -/

namespace Ripple

theorem revalued (h : Ripple s updates cells t more) (linked : s.Linked) : s.Revalued t := by
  induction h with
  | done => exact .refl _
  | next _ _ under after =>
    have first := (linked.revalued_evaluate _).trans (under (linked.evaluate _))
    exact first.trans (after (first.linked linked))

/-- The cells that are evaluated, and those that had the values which their formulas come to, have
them in the end. -/
theorem current (h : Ripple s updates cells t more) (linked : s.Linked)
    (before : q ∈ cells ∨ s.value q = s.computed q) : t.value q = t.computed q := by
  induction h with
  | done => exact before.resolve_left List.not_mem_nil
  | next first _ under after =>
    have later := ((linked.revalued_evaluate _).trans (first.revalued (linked.evaluate _))).linked linked
    refine after later ?_
    rw [List.mem_cons, or_assoc, or_left_comm] at before
    exact before.imp_right fun now => under (linked.evaluate _) (linked.current_evaluate now)

theorem reported (h : Ripple s updates cells t more)
    (before : ∀ q v, updates[q]? = some v → s.value q = v) :
    ∀ q v, more[q]? = some v → t.value q = v := by
  induction h with
  | done => exact before
  | next _ _ under after => exact after (under (reported_evaluate before))

/-- The cells that are reported are those that depend on an evaluated one. -/
theorem mem_iff (h : Ripple s updates cells t more) (linked : s.Linked) :
    q ∈ more ↔ q ∈ updates ∨ ∃ p ∈ cells, ReflTransGen s.Feeds p q := by
  induction h with
  | done => simp
  | @next s t u updates more all p cells first _ under after =>
    have evaluated := linked.revalued_evaluate p
    have later := evaluated.trans (first.revalued (linked.evaluate p))
    have path : ReflTransGen s.Feeds p q ↔
        p = q ∨ ∃ d ∈ (s.evaluate p).1.dependents p, ReflTransGen s.Feeds d q := by
      simp only [evaluated.links, linked.mem_dependents_iff]
      rw [ReflTransGen.cases_head_iff]
    rw [after (later.linked linked), under (linked.evaluate p), later.feeds, evaluated.feeds,
      Std.ExtTreeMap.mem_insert, Std.LawfulEqCmp.compare_eq_iff_eq, or_comm (a := p = q)]
    simp only [List.mem_cons, exists_eq_or_imp, path, or_assoc]

theorem getElem?_iff (h : Ripple s updates cells t more) (linked : s.Linked)
    (before : ∀ q v, updates[q]? = some v → s.value q = v) :
    more[q]? = some v ↔
      (q ∈ updates ∨ ∃ p ∈ cells, ReflTransGen s.Feeds p q) ∧ t.value q = v := by
  rw [← h.mem_iff linked, Std.ExtTreeMap.mem_iff_isSome_getElem?, Option.isSome_iff_exists]
  constructor
  · exact fun hv => ⟨⟨v, hv⟩, h.reported before q v hv⟩
  · rintro ⟨⟨x, hx⟩, rfl⟩
    rw [hx, h.reported before q x hx]

end Ripple

/-- A row of cells ripples if each of its cells does in all sheets that differ in values. -/
theorem exists_ripple_of_each
    (each : ∀ p ∈ cells, ∀ (t : Sheet) (updates : Updates), s.Revalued t → ∃ u more,
      Ripple (t.evaluate p).1 (updates.insert p (t.evaluate p).2) ((t.evaluate p).1.dependents p)
        u more)
    (linked : s.Linked) (same : s.Revalued t) (updates : Updates) :
    ∃ u more, Ripple t updates cells u more := by
  induction cells generalizing t updates with
  | nil => exact ⟨t, updates, .done⟩
  | cons p cells ih =>
    obtain ⟨u, more, first⟩ := each p List.mem_cons_self t updates same
    have evaluated := same.trans ((same.linked linked).revalued_evaluate p)
    have later := evaluated.trans (first.revalued (evaluated.linked linked))
    obtain ⟨w, all, rest⟩ := ih (fun q hq => each q (List.mem_cons_of_mem p hq)) later more
    exact ⟨w, all, .next first rest⟩

/-- Where no cell depends on itself, every ripple ends. -/
theorem exists_ripple (linked : s.Linked) (cells : List Position) (updates : Updates) :
    ∃ t more, Ripple s updates cells t more := by
  -- Links can be followed only so far, since they cannot be followed back for ever either.
  have ends : WellFounded fun q p => s.Feeds p q :=
    Acyclic.wellFounded fun p cycle => linked.acyclic p (transGen_swap.mp cycle)
  have each (p : Position) : ∀ (t : Sheet) (updates : Updates), s.Revalued t → ∃ u more,
      Ripple (t.evaluate p).1 (updates.insert p (t.evaluate p).2) ((t.evaluate p).1.dependents p)
        u more := by
    induction p using ends.induction with
    | h p ih =>
      intro t updates same
      have evaluated := same.trans ((same.linked linked).revalued_evaluate p)
      refine exists_ripple_of_each (fun d hd => ih d ?_) linked evaluated _
      exact (linked.mem_dependents_iff p d).mp ((evaluated.links p d).mp hd)
  exact exists_ripple_of_each (fun p _ => each p) linked (.refl s) updates

/-! ## Entries -/

namespace Placed

/-- With its first evaluation the new formula is linked. -/
theorem linked_evaluate (h : w.Placed p []) : (w.evaluate p).1.Linked where
  mem_dependents_iff a q := by
    rw [mem_dependents_evaluate, feeds_evaluate]
    constructor
    · rintro (linked | ⟨rfl, feeds⟩)
      · exact h.sound a q linked
      · exact feeds
    · intro feeds
      rcases h.complete a q feeds with linked | rfl | ⟨pending, -⟩
      · exact .inl linked
      · exact .inr ⟨rfl, feeds⟩
      · cases pending
  acyclic := h.acyclic.mono fun _ _ feeds => feeds_evaluate.mp feeds

/-- After that the cascade changes values and nothing else. -/
theorem revalued_recompute (h : w.Placed p []) : (w.evaluate p).1.Revalued (w.recompute p).1 where
  name := name_evaluateEach.trans name_evaluate.symm
  operators := operators_evaluateEach.trans operators_evaluate.symm
  formula _ := formula?_evaluateEach.trans formula?_evaluate.symm
  recorded q := by
    rw [h.mem_recompute, mem_evaluate]
    constructor
    · rintro (known | ⟨a, -, feeds⟩)
      · exact .inl known
      · rcases h.complete q a feeds with linked | rfl | ⟨pending, -⟩
        · exact .inl (mem_of_mem_dependents linked)
        · exact .inr feeds
        · cases pending
    · exact fun recorded => recorded.imp_right fun feeds => ⟨p, .refl, feeds⟩
  links a q := by
    rw [Sheet.recompute, mem_dependents_evaluateEach, mem_dependents_evaluate]
    constructor
    · rintro (linked | ⟨-, feeds⟩)
      · exact .inl linked
      · rcases h.complete a q feeds with linked | rfl | ⟨pending, -⟩
        · exact .inl linked
        · exact .inr ⟨rfl, feeds⟩
        · cases pending
    · rintro (linked | ⟨rfl, feeds⟩)
      · exact .inl linked
      · exact .inr ⟨h.mem_cascade_iff.mpr .refl, feeds⟩

/-- When the new formula has been evaluated, the cells that depend on it are still to come to, and
all others have the values that their formulas come to. -/
theorem current_evaluate (h : w.Placed p []) (q : Position) :
    q ∈ (w.evaluate p).1.dependents p ∨ (w.evaluate p).1.value q = (w.evaluate p).1.computed q := by
  by_cases feeds : w.Feeds p q
  · exact .inl ((h.linked_evaluate.mem_dependents_iff p q).mpr (feeds_evaluate.mpr feeds))
  · refine .inr ?_
    rw [computed_evaluate feeds, value_evaluate]
    split
    · next same => rw [same]
    · next other => exact h.current q (Ne.symm other) List.not_mem_nil

/-- A ripple from the cell of a new formula ends, and in the sheet and with the updates of the
cascade that evaluates every cell once. -/
theorem ripple_iff (h : w.Placed p []) :
    Ripple w ∅ [p] t more ↔ t = (w.recompute p).1 ∧ more = (w.recompute p).2 := by
  have settled := h.settled
  have nothing : ∀ q v, (∅ : Updates)[q]? = some v → w.value q = v :=
    fun q v none => by simp at none
  -- What comes of a ripple; that one ends is shown below.
  have same {t : Sheet} {more : Updates} (ripple : Ripple w ∅ [p] t more) :
      t = (w.recompute p).1 ∧ more = (w.recompute p).2 := by
    obtain _ | ⟨first, ⟨⟩⟩ := ripple
    have revalued := h.revalued_recompute.symm.trans (first.revalued h.linked_evaluate)
    have current (q : Position) := first.current h.linked_evaluate (h.current_evaluate q)
    have sheet : t = (w.recompute p).1 := revalued.eq settled (revalued.settled settled current)
    refine ⟨sheet, Std.ExtTreeMap.ext_getElem? fun q => Option.ext fun v => ?_⟩
    rw [first.getElem?_iff h.linked_evaluate (reported_evaluate nothing), h.getElem?_recompute, sheet]
    refine and_congr_left fun _ => ?_
    rw [Std.ExtTreeMap.mem_insert, Std.LawfulEqCmp.compare_eq_iff_eq,
      or_iff_left Std.ExtTreeMap.not_mem_empty, ReflTransGen.cases_head_iff]
    simp only [h.linked_evaluate.mem_dependents_iff]
    have feeds : (w.evaluate p).1.Feeds = w.Feeds := by
      funext a b
      exact propext feeds_evaluate
    rw [feeds]
  constructor
  · exact same
  · rintro ⟨rfl, rfl⟩
    obtain ⟨u, all, first⟩ := exists_ripple h.linked_evaluate ((w.evaluate p).1.dependents p)
      ((∅ : Updates).insert p (w.evaluate p).2)
    have ripple : Ripple w ∅ [p] u all := .next first .done
    obtain ⟨rfl, rfl⟩ := same ripple
    exact ripple

end Placed

/-- **One evaluation is enough.** After every history, the cascade of an entry that is not refused,
in which every cell is evaluated once, leaves the sheet and returns the updates that a ripple from
the entered cell would. The ripple always ends, however often it comes to a cell. -/
theorem ripple_iff_enter_edits (name : String) (operators : Op → List Float → Float)
    (es : List Edit) (ok : (((blank name operators).edits es).enter cell text).2 = .ok updates) :
    let s := (blank name operators).edits es
    ∃ p tree, Position.read cell = .ok p ∧ Expr.parse p text = .ok tree ∧
      (s.place p ⟨Text.strip text, tree⟩).recompute p = ((s.enter cell text).1, updates) ∧
      ∀ t more, Ripple (s.place p ⟨Text.strip text, tree⟩) ∅ [p] t more ↔
        t = (s.enter cell text).1 ∧ more = updates := by
  intro s
  have settled : s.Settled := settled_edits name operators es
  obtain ⟨p, tree, named, parsed, free, entered⟩ := exists_placed_of_enter ok
  have placed : (s.place p ⟨Text.strip text, tree⟩).Placed p [] :=
    settled.place (Position.onGrid_of_read named) (.strip parsed)
      (settled.acyclic_place (clash?_eq_none_iff.mp free)) (absurd rfl)
  change (s.enter cell text).2 = .ok updates at ok
  change s.enter cell text = _ at entered
  rw [entered] at ok ⊢
  cases ok
  exact ⟨p, tree, named, parsed, rfl, fun t more => placed.ripple_iff⟩

/-- A ripple that comes to `c1` twice, once after `b1` and once after `a1`. -/
theorem ripple_under_c1 :
    let s := (blank "sheet" Op.apply).edits [.enter "b1" "-a$1 / 2", .enter "c1" "a1 * b1"]
    ∃ updates, (s.enter "$A$1" "7 + c2").2 = .ok updates ∧
      ∃ p tree, Position.read "$A$1" = .ok p ∧ Expr.parse p "7 + c2" = .ok tree ∧
        (s.place p ⟨Text.strip "7 + c2", tree⟩).recompute p =
          ((s.enter "$A$1" "7 + c2").1, updates) ∧
        ∀ t more, Ripple (s.place p ⟨Text.strip "7 + c2", tree⟩) ∅ [p] t more ↔
          t = (s.enter "$A$1" "7 + c2").1 ∧ more = updates := by
  intro s
  have a1 : Position.read "$A$1" = .ok ⟨0, 0⟩ := by decide +kernel
  have added : ((Expr.parse ⟨0, 0⟩ "7 + c2").toOption.any fun tree =>
      tree.references ⟨0, 0⟩ = [⟨2, 1⟩]) = true := by decide +kernel
  obtain ⟨sum, parsed, added⟩ := exists_ok_of_any added
  have targets : sum.references ⟨0, 0⟩ = [⟨2, 1⟩] := of_decide_eq_true added
  have settled : s.Settled := settled_edits "sheet" Op.apply _
  obtain ⟨updates, ok⟩ : ∃ updates, (s.enter "$A$1" "7 + c2").2 = .ok updates := by
    refine settled.exists_enter_ok a1 parsed fun q mem => ?_
    rw [targets, List.mem_singleton] at mem
    subst mem
    refine ⟨by decide, fun a feeds => ?_⟩
    rcases feeds_multiplied.mp feeds with ⟨-, same⟩ | ⟨-, same⟩ <;> exact absurd same (by decide)
  exact ⟨updates, ok, ripple_iff_enter_edits "sheet" Op.apply
    [.enter "b1" "-a$1 / 2", .enter "c1" "a1 * b1"] ok⟩

end Worksheet.Sheet
