import Worksheet.Grid.Order

/-!
# Links between cells

From every cell links lead to the cells that depend on it. A walk visits a cell and all that depend
on it, near or far; an order lists cells so that each one stands after the listed cells it depends
on, and the first possible cell always comes first.

Results:
* `unseen_insert_lt`: a cell that is seen for the first time leaves fewer to be seen.
* `Progress.size_release_le`: releasing a cell never makes more of them wait.
-/
namespace Worksheet

/-- Links from cells to cells. Only finitely many cells have links.
mirrors `Spreadsheet.dependents_of`, which gives `next` -/
structure Links where
  cells : List Position
  next : Position → List Position
  next_eq_nil : ∀ p, p ∉ cells → next p = []

namespace Links

/-! ## Walks -/

/-- The number of cells with links that have not been seen. -/
def unseen (l : Links) (seen : PositionSet) : Nat := l.cells.countP fun p => decide (p ∉ seen)

theorem unseen_insert_le (l : Links) (seen : PositionSet) (p : Position) :
    l.unseen (seen.insert p) ≤ l.unseen seen := by
  refine List.countP_mono_left fun q _ h => ?_
  simp only [decide_eq_true_eq, Std.ExtTreeSet.mem_insert, not_or] at h ⊢
  exact h.2

theorem unseen_insert_lt (l : Links) {seen : PositionSet} {p : Position} (hp : p ∈ l.cells)
    (hs : p ∉ seen) : l.unseen (seen.insert p) < l.unseen seen := by
  obtain ⟨before, after, split⟩ := List.append_of_mem hp
  have part (cells : List Position) :
      cells.countP (fun q => decide (q ∉ seen.insert p)) ≤
        cells.countP (fun q => decide (q ∉ seen)) := by
    refine List.countP_mono_left fun q _ h => ?_
    simp only [decide_eq_true_eq, Std.ExtTreeSet.mem_insert, not_or] at h ⊢
    exact h.2
  have hb := part before
  have ha := part after
  have new : decide (p ∉ seen.insert p) = false := by simp
  have old : decide (p ∉ seen) = true := by simp [hs]
  simp only [unseen, split, List.countP_append, List.countP_cons, new, old, if_true,
    Bool.false_eq_true, if_false]
  omega

/-- A first visit to a cell leaves fewer cells unseen, or as many with fewer pending. -/
theorem visit_decreases (l : Links) {seen : PositionSet} {p : Position} (pending : List Position)
    (h : p ∉ seen) :
    Prod.Lex (· < ·) (· < ·)
      (l.unseen (seen.insert p), ((l.next p).reverse ++ pending).length)
      (l.unseen seen, (p :: pending).length) := by
  by_cases hp : p ∈ l.cells
  · exact Prod.Lex.left _ _ (unseen_insert_lt l hp h)
  · rw [l.next_eq_nil p hp]
    rcases Nat.lt_or_eq_of_le (unseen_insert_le l seen p) with fewer | same
    · exact Prod.Lex.left _ _ fewer
    · rw [same]; exact Prod.Lex.right _ (by simp)

/-- Visits what is pending, the first first, and after each cell what its links lead to, the last
link first. Cells that were seen are passed over.
mirrors the loop of `Spreadsheet.validate`, and the first of `Spreadsheet.cascade_order` -/
def walkFrom (l : Links) (seen : PositionSet) : List Position → List Position
  | [] => []
  | p :: pending =>
    if p ∈ seen then walkFrom l seen pending
    else p :: walkFrom l (seen.insert p) ((l.next p).reverse ++ pending)
termination_by pending => (l.unseen seen, pending.length)
decreasing_by
  · exact Prod.Lex.right _ (by simp)
  · next h => simpa using visit_decreases l pending h

/-- A cell and all that depend on it, in the order of a walk. -/
def walk (l : Links) (start : Position) : List Position := l.walkFrom ∅ [start]

/-! ## Orders -/

/-- How far an order has come: how many listed cells each cell still waits for, if any, and which
cells wait for none.
mirrors `waiting_on` and `ready` in `Spreadsheet.cascade_order` -/
structure Progress where
  waiting : PositionMap Nat
  ready : PositionSet

namespace Progress

def size (s : Progress) : Nat := s.waiting.size + s.ready.size

/-- One cell that `p` waits for has been listed. -/
def release (s : Progress) (p : Position) : Progress :=
  match s.waiting[p]? with
  | none => s
  | some count =>
    if count ≤ 1 then ⟨s.waiting.erase p, s.ready.insert p⟩
    else ⟨s.waiting.insert p (count - 1), s.ready⟩

theorem waiting_size_pos {s : Progress} {p : Position} (h : p ∈ s.waiting) :
    0 < s.waiting.size := by
  refine Nat.pos_of_ne_zero fun none => ?_
  rw [Std.ExtTreeMap.eq_empty_iff_size_eq_zero.mpr none] at h
  exact Std.ExtTreeMap.not_mem_empty h

theorem ready_size_pos {s : Progress} {p : Position} (h : p ∈ s.ready) : 0 < s.ready.size := by
  refine Nat.pos_of_ne_zero fun none => ?_
  rw [Std.ExtTreeSet.eq_empty_iff_size_eq_zero.mpr none] at h
  exact Std.ExtTreeSet.not_mem_empty h

theorem size_release_le (s : Progress) (p : Position) : (s.release p).size ≤ s.size := by
  unfold release
  split
  · exact Nat.le_refl _
  · next count h =>
    have hp : p ∈ s.waiting := Std.ExtTreeMap.mem_iff_isSome_getElem?.mpr (by rw [h]; rfl)
    have pos := waiting_size_pos hp
    split
    · have erased := Std.ExtTreeMap.size_erase (t := s.waiting) (k := p)
      have inserted := Std.ExtTreeSet.size_insert_le (t := s.ready) (k := p)
      rw [if_pos (Std.ExtTreeMap.mem_iff_contains.mp hp)] at erased
      simp only [size]; omega
    · have inserted := Std.ExtTreeMap.size_insert (t := s.waiting) (k := p) (v := count - 1)
      rw [if_pos (Std.ExtTreeMap.mem_iff_contains.mp hp)] at inserted
      simp only [size]; omega

theorem size_foldl_release_le (s : Progress) (cells : List Position) :
    (cells.foldl release s).size ≤ s.size := by
  induction cells generalizing s with
  | nil => exact Nat.le_refl _
  | cons p cells ih => exact Nat.le_trans (ih _) (size_release_le s p)

/-- The progress when the first ready cell `p` is listed. -/
def list (l : Links) (s : Progress) (p : Position) : Progress :=
  (l.next p).foldl release { s with ready := s.ready.erase p }

theorem size_list_lt (l : Links) {s : Progress} {p : Position} (h : s.ready.min? = some p) :
    (list l s p).size < s.size := by
  have hp : p ∈ s.ready := Std.ExtTreeSet.min?_mem h
  have pos := ready_size_pos hp
  have erased := Std.ExtTreeSet.size_erase (t := s.ready) (k := p)
  rw [if_pos (Std.ExtTreeSet.mem_iff_contains.mp hp)] at erased
  have := size_foldl_release_le { s with ready := s.ready.erase p } (l.next p)
  simp only [list, size] at this ⊢
  omega

/-- Lists the cells that become ready, always the first one of them.
mirrors the last loop of `Spreadsheet.cascade_order` -/
def run (l : Links) (s : Progress) : List Position :=
  match _found : s.ready.min? with
  | none => []
  | some p => p :: run l (list l s p)
termination_by s.size
decreasing_by exact size_list_lt l ‹_›

end Progress

/-- One more listed cell for `p` to wait for. -/
def await (waiting : PositionMap Nat) (p : Position) : PositionMap Nat :=
  waiting.insert p (waiting.getD p 0 + 1)

/-- How many of some cells each of them depends on, if any.
mirrors the second loop of `Spreadsheet.cascade_order` -/
def waitingAmong (l : Links) (cells : PositionSet) : PositionMap Nat :=
  (cells.toList.flatMap fun p => (l.next p).filter (· ∈ cells)).foldl await ∅

/-- The progress before any of some cells is listed. -/
def startAmong (l : Links) (cells : PositionSet) : Progress :=
  let waiting := l.waitingAmong cells
  ⟨waiting, cells.filter fun p => !waiting.contains p⟩

/-- Some cells, each after those of them that it depends on.
mirrors `Spreadsheet.cascade_order` after the cells are found -/
def order (l : Links) (cells : PositionSet) : List Position := (l.startAmong cells).run l

/-- A cell and all that depend on it, each after those of them that it depends on.
mirrors `Spreadsheet.cascade_order` -/
def cascade (l : Links) (start : Position) : List Position :=
  l.order (.ofList (l.walk start) Position.order)

end Links

end Worksheet
