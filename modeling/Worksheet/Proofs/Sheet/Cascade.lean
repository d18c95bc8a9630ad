import Worksheet.Proofs.Grid.Order
import Worksheet.Proofs.Links.Countdown
import Worksheet.Proofs.Sheet.History

/-!
# The order of a cascade

When the formula of a cell changes, the cell and all that depend on it are evaluated again, each of
them once and only after those of them that its formula refers to (`IsCascade`). Many lists are such
orders. The cascade is found by counting down the links between the cells, and it is the first of
these lists when they are compared name by name.

Names are compared as text, and this is the order of cells on the grid only. Off the grid it does
not matter: no cell there has a record, so nothing depends on it and its cascade is the cell alone.

Results:
* `Settled.isCascade`: the cascade of a settled sheet is such an order.
* `Settled.cascade_least`: it comes before all others by name.
* `cascade_edits`: both after every history, and no count of links goes below zero on the way.
-/
namespace Worksheet.Sheet

variable {s : Sheet} {start p q : Position} {cells : List Position}

/-- An order in which a cell and all that depend on it can be evaluated. -/
structure IsCascade (s : Sheet) (start : Position) (cells : List Position) : Prop where
  /-- Each cell is listed once. -/
  nodup : cells.Nodup
  /-- The listed cells are the start and those that dependents of dependents lead to. -/
  mem_iff : ∀ q, q ∈ cells ↔ s.links.Reaches start q
  /-- Each cell stands after those of the listed cells that its formula refers to. -/
  after : ∀ before q later, cells = before ++ q :: later → ∀ p ∈ cells, s.Feeds p q → p ∈ before

theorem Settled.isCascade (h : s.Settled) (start : Position) :
    s.IsCascade start (s.links.cascade start) where
  nodup := Links.nodup_order h.links_acyclic _
  mem_iff _ := Links.mem_cascade_iff h.links_acyclic
  after _ _ _ split _ hp feeds :=
    Links.leads_before_cascade h.links_acyclic split hp (h.mem_dependents_iff.mpr feeds)

/-! ## The first order by name -/

/-- No cell stands before one that leads to it. -/
theorem IsCascade.pairwise (listed : s.IsCascade start cells) (h : s.Settled) :
    cells.Pairwise fun a b => ¬ s.links.Leads b a := by
  refine List.pairwise_iff_forall_sublist.mpr fun {a b} sub lead => ?_
  obtain ⟨front, back, rfl, ha, hb⟩ := List.cons_sublist_iff.mp sub
  obtain ⟨before, between, rfl⟩ := List.append_of_mem ha
  rw [List.singleton_sublist] at hb
  have split : before ++ a :: between ++ back = before ++ a :: (between ++ back) := by simp
  have early := listed.after before a _ split b (List.mem_append_right _ hb)
    (h.mem_dependents_iff.mp lead)
  have apart := (List.nodup_append.mp listed.nodup).2.2
  exact apart b (List.mem_append_left _ early) b hb rfl

theorem Settled.onGrid_of_reaches (h : s.Settled) (first : start.OnGrid)
    (reach : s.links.Reaches start q) : q.OnGrid := by
  rcases reach.cases_tail with rfl | ⟨p, -, step⟩
  · exact first
  · obtain ⟨f, hf, -⟩ := feeds_iff.mp (h.mem_dependents_iff.mp step)
    exact h.onGrid q (mem_of_formula? hf)

theorem Settled.eq_of_reaches (h : s.Settled) (off : ¬ start.OnGrid)
    (reach : s.links.Reaches start q) : q = start := by
  rcases reach.cases_head with rfl | ⟨p, step, -⟩
  · rfl
  · exact absurd (h.mem_dependents_iff.mp step).onGrid off

/-- Cells of one cascade are in the order of their names. -/
theorem Settled.name_lt (h : s.Settled) (hp : s.links.Reaches start p)
    (hq : s.links.Reaches start q) (lt : Position.order p q = .lt) : p.name < q.name := by
  by_cases first : start.OnGrid
  · exact (Position.order_eq_lt_iff (h.onGrid_of_reaches first hp)
      (h.onGrid_of_reaches first hq)).mp lt
  · rw [h.eq_of_reaches first hp, h.eq_of_reaches first hq] at lt
    exact absurd lt (Std.OrientedCmp.not_lt_of_lt lt)

theorem Settled.cascade_least (h : s.Settled) (listed : s.IsCascade start cells) :
    cells = s.links.cascade start ∨
      List.Lex (fun p q => p.name < q.name) (s.links.cascade start) cells := by
  refine Links.order_least h.links_acyclic (fun p hp q hq => ?_) listed.nodup (fun p => ?_)
    (listed.pairwise h)
  · exact h.name_lt (Links.mem_ofList_walk.mp hp) (Links.mem_ofList_walk.mp hq)
  · rw [listed.mem_iff, Links.mem_ofList_walk]

/-- **Cascades.** After every history, the cascade from a cell lists once each the cell and all that
depend on it, and each of them after those that its formula refers to. Of all such lists it is the
first, compared name by name. It is found by counting down the links between the cells, and a count
never goes below zero. -/
theorem cascade_edits (name : String) (operators : Op → List Float → Float) (es : List Edit)
    (start : Position) :
    let s := (blank name operators).edits es
    s.IsCascade start (s.links.cascade start) ∧
      (∀ cells, s.IsCascade start cells → cells = s.links.cascade start ∨
        List.Lex (fun p q => p.name < q.name) (s.links.cascade start) cells) ∧
      s.links.countedCascade start = some (s.links.cascade start) := by
  have settled := settled_edits name operators es
  exact ⟨settled.isCascade start, fun cells listed => settled.cascade_least listed,
    Links.countedCascade_eq _ start⟩

end Worksheet.Sheet
