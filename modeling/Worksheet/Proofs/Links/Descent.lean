import Mathlib.Data.Set.Card
import Mathlib.Order.Bounds.Defs
import Worksheet.Proofs.Links.Order

/-!
# Depths from links

Depths can be found by one pass over the links. Every cell waits for the links that lead to it. A
cell that waits for none is taken up: its links are followed, each makes the cell it leads to at
least one deeper than the one it comes from, and a cell whose last link is followed may be taken up
in its turn. What may be taken up lies on a stack, and the stack is begun with the cells to which no
link leads, in any order. So a cell may get a depth long before it is taken up, and this depth may
still grow.

It is final when the cell is taken up, because by then all cells that lead to it have been taken up
(`Descent.Accounts`), and every link that was followed has raised it (`Descent.Found`). Neither
depends on an order, and while cells remain the stack is not empty.

Results:
* `IsDepth.le`, `IsDepth.lt`: the depth of a cell is the least above those of the cells leading to
  it.
* `Descent.follow_spec`: taking up a cell keeps the accounts and the depths found.
* `Descent.run_spec`: a descent comes to an end with all depths.
* `descend_eq`: whatever the orders, no link is followed to a cell that waits for none, and every
  cell gets its depth.
-/
namespace Worksheet

open Relation

/-! ## Depths -/

/-- A depth for each cell: zero for a cell to which nothing leads, and for any other cell one more
than the greatest depth of those that lead to it. -/
structure IsDepth (r : Position → Position → Prop) (depth : Position → Nat) : Prop where
  top : ∀ p, (∀ q, ¬ r q p) → depth p = 0
  under : ∀ p, (∃ q, r q p) → IsGreatest {n | ∃ q, r q p ∧ n = depth q + 1} (depth p)

namespace IsDepth

variable {r : Position → Position → Prop} {depth : Position → Nat} {p q : Position}

theorem lt (h : IsDepth r depth) (step : r p q) : depth p < depth q :=
  (h.under q ⟨p, step⟩).2 ⟨p, step, rfl⟩

theorem le {n : Nat} (h : IsDepth r depth) (above : ∀ a, r a q → depth a < n) : depth q ≤ n := by
  by_cases led : ∃ a, r a q
  · obtain ⟨⟨a, step, eq⟩, -⟩ := h.under q led
    rw [eq]
    exact above a step
  · rw [h.top q (not_exists.mp led)]
    exact Nat.zero_le n

theorem lt_of_path (h : IsDepth r depth) (path : TransGen r p q) : depth p < depth q := by
  induction path with
  | single step => exact h.lt step
  | tail _ step ih => exact Nat.lt_trans ih (h.lt step)

/-- Depths grow along a path, so none leads back to where it begins. -/
theorem acyclic (h : IsDepth r depth) : Acyclic r :=
  fun _ cycle => Nat.lt_irrefl _ (h.lt_of_path cycle)

end IsDepth

namespace Links

theorem mem_of_leads {l : Links} {p q : Position} (lead : l.Leads p q) : p ∈ l.cells := by
  refine Decidable.byContradiction fun apart => ?_
  rw [Leads, l.next_eq_nil p apart] at lead
  cases lead

/-- The links from other cells than those of `rest`. -/
abbrev LeadsBut (l : Links) (rest : List Position) (p q : Position) : Prop := l.Leads p q ∧ p ∉ rest

/-! ## Descents -/

/-- How far a descent has come: how many links each cell still waits for, the cells that may be
taken up, the next one first, and the depths found so far. -/
structure Descent where
  waiting : PositionMap Nat
  ready : List Position
  depths : PositionMap Nat

namespace Descent

/-- Follows a link to `p` that makes it at least so deep. It is an error if `p` waits for none. -/
def sink (depth : Nat) (s : Descent) (p : Position) : Option Descent :=
  match s.waiting[p]? with
  | none => some s
  | some 0 => none
  | some (count + 1) => some
    { waiting := s.waiting.insert p count
      ready := if count = 0 then p :: s.ready else s.ready
      depths := s.depths.insert p (max (s.depths.getD p 0) depth) }

/-- Follows all links of `p`. -/
def follow (l : Links) (s : Descent) (p : Position) : Option Descent :=
  (l.next p).foldlM (sink (s.depths.getD p 0 + 1)) s

def waits (s : Descent) : Set Position := {p | 0 < s.waiting.getD p 0}

noncomputable def size (s : Descent) : Nat := s.waits.ncard + s.ready.length

variable {l : Links} {s t : Descent} {p q : Position} {d : Nat} {targets ready rest : List Position}
  {depth owed : Position → Nat} {led : Position → Position → Prop}

theorem size_sink_le (h : s.sink d p = some t) : t.size ≤ s.size := by
  unfold sink at h
  split at h
  · cases h; exact Nat.le_refl _
  · cases h
  · next count present =>
    have before : s.waiting.getD p 0 = count + 1 := by
      rw [Std.ExtTreeMap.getD_eq_getD_getElem?, present, Option.getD_some]
    cases h
    simp only [size, waits, Std.ExtTreeMap.getD_insert, Std.LawfulEqCmp.compare_eq_iff_eq]
    split
    · next last =>
      have fewer : {q | 0 < if p = q then count else s.waiting.getD q 0} = s.waits \ {p} := by
        ext q; simp only [waits, Set.mem_ofPred_eq, Set.mem_sdiff, Set.mem_singleton_iff]; grind
      have mem : p ∈ s.waits := by simp only [waits, Set.mem_ofPred_eq]; omega
      have := Set.ncard_sdiff_singleton_add_one mem
      simp only [fewer, List.length_cons, waits] at this ⊢
      omega
    · have subset : {q | 0 < if p = q then count else s.waiting.getD q 0} ⊆ s.waits := by
        intro q; simp only [waits, Set.mem_ofPred_eq]; grind
      exact Nat.add_le_add_right (Set.ncard_le_ncard subset) _

theorem size_foldlM_sink_le (h : targets.foldlM (sink d) s = some t) : t.size ≤ s.size := by
  induction targets generalizing s with
  | nil => cases h; exact Nat.le_refl _
  | cons p targets ih =>
    rw [List.foldlM_cons, Option.bind_eq_bind, Option.bind_eq_some_iff] at h
    obtain ⟨u, first, others⟩ := h
    exact Nat.le_trans (ih others) (size_sink_le first)

/-- Takes up cells until none is left, and gives the depths. -/
def run (l : Links) (s : Descent) : Option (PositionMap Nat) :=
  match _top : s.ready with
  | [] => some s.depths
  | p :: ready =>
    match _followed : follow l { s with ready } p with
    | none => none
    | some t => run l t
termination_by s.size
decreasing_by
  have := size_foldlM_sink_le _followed
  simp only [size, waits, _top, List.length_cons] at this ⊢
  omega

/-! ## What following links keeps -/

/-- Each cell waits for as many links as it is owed. Of the cells that remain, those that are owed
none may be taken up, each once; a cell that is owed a link remains. -/
structure Accounts (l : Links) (rest : List Position) (owed : Position → Nat) (s : Descent) :
    Prop where
  known : ∀ q ∈ rest, q ∈ l.cells
  waiting : ∀ q n, s.waiting[q]? = some n ↔ q ∈ l.cells ∧ owed q = n
  ready : ∀ q, q ∈ s.ready ↔ q ∈ rest ∧ owed q = 0
  nodup : s.ready.Nodup
  remains : ∀ q ∈ l.cells, 0 < owed q → q ∈ rest

/-- The links `led` have been followed. They have made each cell deeper than the one they come from,
and no cell deeper than it is. A cell has some depth when the first link to it has been followed, or
if there is none. -/
structure Found (l : Links) (depth : Position → Nat) (led : Position → Position → Prop)
    (s : Descent) : Prop where
  known : ∀ q, q ∈ s.depths ↔ q ∈ l.cells ∧ ((∃ a, led a q) ∨ ∀ a, ¬ l.Leads a q)
  low : ∀ q, s.depths.getD q 0 ≤ depth q
  high : ∀ a q, led a q → q ∈ l.cells → depth a < s.depths.getD q 0

theorem Accounts.mem_waiting_iff (h : s.Accounts l rest owed) : q ∈ s.waiting ↔ q ∈ l.cells := by
  rw [Std.ExtTreeMap.mem_iff_isSome_getElem?, Option.isSome_iff_exists]
  exact ⟨fun ⟨n, hn⟩ => ((h.waiting q n).mp hn).1, fun mem => ⟨_, (h.waiting q _).mpr ⟨mem, rfl⟩⟩⟩

theorem Accounts.sink (h : s.Accounts l rest owed) (pos : 0 < owed q) :
    ∃ t, s.sink d q = some t ∧ t.Accounts l rest fun x => owed x - if q = x then 1 else 0 := by
  unfold Descent.sink
  split
  · next absent =>
    -- No count is kept: `q` is none of the cells.
    have apart : q ∉ l.cells := by
      rw [← h.mem_waiting_iff, Std.ExtTreeMap.mem_iff_isSome_getElem?, absent]
      exact Bool.false_ne_true
    refine ⟨s, rfl, h.known, fun x n => ?_, fun x => ?_, h.nodup, fun x hx => ?_⟩
    · rw [h.waiting x n]; grind
    · have := h.known x
      rw [h.ready x]; grind
    · have := h.remains x hx; grind
  · next none => exact absurd ((h.waiting q 0).mp none).2 (Nat.ne_of_gt pos)
  · next count present =>
    obtain ⟨mem, owes⟩ := (h.waiting q (count + 1)).mp present
    have remains := h.remains q mem pos
    refine ⟨_, rfl, h.known, fun x n => ?_, fun x => ?_, ?_, fun x hx => ?_⟩
    · have := h.waiting x n
      simp only [Std.ExtTreeMap.getElem?_insert, Std.LawfulEqCmp.compare_eq_iff_eq]
      grind
    · have := h.ready x
      dsimp only
      split <;> grind
    · have : q ∉ s.ready := fun listed => absurd ((h.ready q).mp listed).2 (Nat.ne_of_gt pos)
      dsimp only
      split
      · exact List.nodup_cons.mpr ⟨this, h.nodup⟩
      · exact h.nodup
    · have := h.remains x hx; grind

theorem Found.sink (found : s.Found l depth led) (h : s.Accounts l rest owed)
    (isDepth : IsDepth l.Leads depth) (lead : l.Leads p q)
    (sunk : s.sink (depth p + 1) q = some t) :
    t.Found l depth fun a x => led a x ∨ (a = p ∧ x = q) := by
  have deeper := isDepth.lt lead
  have known := h.mem_waiting_iff (q := q)
  unfold Descent.sink at sunk
  split at sunk
  · next absent =>
    cases sunk
    rw [Std.ExtTreeMap.mem_iff_isSome_getElem?, absent] at known
    refine ⟨fun x => ?_, found.low, fun a x => ?_⟩
    · rw [found.known x]; grind
    · have := found.high a x; grind
  · cases sunk
  · next count present =>
    cases sunk
    rw [Std.ExtTreeMap.mem_iff_isSome_getElem?, present] at known
    refine ⟨fun x => ?_, fun x => ?_, fun a x => ?_⟩
    · have := found.known x
      simp only [Std.ExtTreeMap.mem_insert, Std.LawfulEqCmp.compare_eq_iff_eq]
      grind
    · have := found.low x
      simp only [Std.ExtTreeMap.getD_insert, Std.LawfulEqCmp.compare_eq_iff_eq]
      grind
    · have := found.high a x
      simp only [Std.ExtTreeMap.getD_insert, Std.LawfulEqCmp.compare_eq_iff_eq]
      grind

theorem Accounts.foldlM_sink (h : s.Accounts l rest owed) (found : s.Found l depth led)
    (isDepth : IsDepth l.Leads depth) (leads : ∀ q ∈ targets, l.Leads p q)
    (enough : ∀ q, targets.count q ≤ owed q) :
    ∃ t, targets.foldlM (Descent.sink (depth p + 1)) s = some t ∧
      t.Accounts l rest (fun q => owed q - targets.count q) ∧
      t.Found l depth fun a q => led a q ∨ (a = p ∧ q ∈ targets) := by
  induction targets generalizing s owed led with
  | nil => exact ⟨s, rfl, by simpa using h, by simpa using found⟩
  | cons q targets ih =>
    have pos : 0 < owed q := Nat.lt_of_lt_of_le (by simp) (enough q)
    obtain ⟨t, sunk, accounts⟩ := h.sink (d := depth p + 1) pos
    have foundMore := found.sink h isDepth (leads q List.mem_cons_self) sunk
    obtain ⟨u, followed, accounts, foundAll⟩ := ih accounts foundMore
      (fun x hx => leads x (List.mem_cons_of_mem q hx)) fun x => by
        have := enough x
        simp only [List.count_cons, beq_iff_eq] at this
        omega
    refine ⟨u, ?_, ?_, ?_⟩
    · rw [List.foldlM_cons, sunk]
      exact followed
    · simpa only [List.count_cons, beq_iff_eq, Nat.sub_sub, Nat.add_comm] using accounts
    · simpa only [List.mem_cons, and_or_left, or_assoc] using foundAll

/-! ## Taking up cells -/

/-- The cell on top of the stack is taken off, and its links have not been followed yet. -/
theorem Accounts.take (h : s.Accounts l rest owed) (nodup : rest.Nodup) (top : s.ready = p :: ready) :
    Accounts l (rest.erase p) owed { s with ready } := by
  obtain ⟨mem, none⟩ := (h.ready p).mp (top ▸ List.mem_cons_self)
  obtain ⟨apart, nodupReady⟩ := List.nodup_cons.mp (top ▸ h.nodup)
  refine ⟨fun q hq => h.known q (List.mem_of_mem_erase hq), h.waiting, fun q => ?_, nodupReady,
    fun q hq pos => ?_⟩
  · have := h.ready q
    rw [top] at this
    rw [nodup.mem_erase_iff]
    grind
  · refine nodup.mem_erase_iff.mpr ⟨?_, h.remains q hq pos⟩
    rintro rfl
    exact absurd none (Nat.ne_of_gt pos)

/-- When all links to a cell have been followed, its depth is final. -/
theorem Found.getD_eq (found : s.Found l depth led) (isDepth : IsDepth l.Leads depth)
    (known : p ∈ l.cells) (all : ∀ a, l.Leads a p → led a p) : s.depths.getD p 0 = depth p :=
  Nat.le_antisymm (found.low p) (isDepth.le fun a lead => found.high a p (all a lead) known)

/-- Taking up a cell keeps the accounts of the cells that remain after it. -/
theorem follow_spec (isDepth : IsDepth l.Leads depth) (nodup : rest.Nodup)
    (h : s.Accounts l rest (l.owed rest)) (found : s.Found l depth (l.LeadsBut rest))
    (top : s.ready = p :: ready) :
    ∃ t, follow l { s with ready } p = some t ∧
      t.Accounts l (rest.erase p) (l.owed (rest.erase p)) ∧
      t.Found l depth (l.LeadsBut (rest.erase p)) := by
  obtain ⟨mem, none⟩ := (h.ready p).mp (top ▸ List.mem_cons_self)
  have before : Found l depth (l.LeadsBut rest) { s with ready } := ⟨found.known, found.low, found.high⟩
  have final : s.depths.getD p 0 = depth p := found.getD_eq isDepth (h.known p mem) fun a lead =>
    ⟨lead, fun remains => owed_eq_zero_iff.mp none a remains lead⟩
  have enough (q : Position) : (l.next p).count q ≤ l.owed rest q := by
    rw [owed_eq_add mem]
    exact Nat.le_add_right _ _
  obtain ⟨t, followed, accounts, foundAll⟩ :=
    (h.take nodup top).foldlM_sink before isDepth (fun q => id) enough
  refine ⟨t, ?_, by simpa only [← owed_erase mem] using accounts, ?_⟩
  · rw [follow, final]
    exact followed
  · have same : (fun a q => l.LeadsBut rest a q ∨ (a = p ∧ q ∈ l.next p)) =
        l.LeadsBut (rest.erase p) := by
      funext a q
      rw [LeadsBut, LeadsBut, nodup.mem_erase_iff, Leads]
      grind
    exact same ▸ foundAll

/-- While cells remain, the stack is not empty. -/
theorem Accounts.rest_eq_nil (h : s.Accounts l rest (l.owed rest)) (acyclic : Acyclic l.Leads)
    (idle : s.ready = []) : rest = [] := by
  refine Decidable.byContradiction fun more => ?_
  obtain ⟨p, hp, none⟩ := exists_unowed acyclic more
  have ready := (h.ready p).mpr ⟨hp, none⟩
  rw [idle] at ready
  cases ready

/-- When no cell remains, all have their depths. -/
theorem Found.getElem?_eq (found : s.Found l depth (l.LeadsBut [])) (isDepth : IsDepth l.Leads depth)
    (q : Position) : s.depths[q]? = if q ∈ l.cells then some (depth q) else none := by
  have all (a : Position) (lead : l.Leads a q) : l.LeadsBut [] a q := ⟨lead, List.not_mem_nil⟩
  have mem : q ∈ s.depths ↔ q ∈ l.cells := by
    rw [found.known q, and_iff_left_iff_imp]
    intro _
    by_cases led : ∃ a, l.Leads a q
    · obtain ⟨a, lead⟩ := led
      exact .inl ⟨a, all a lead⟩
    · exact .inr (not_exists.mp led)
  split
  · next known =>
    rw [Std.ExtTreeMap.getElem?_eq_some_getD (mem.mpr known), found.getD_eq isDepth known all]
  · next apart => exact Std.ExtTreeMap.getElem?_eq_none (mt mem.mp apart)

/-- A descent takes up all cells that remain, and then every cell has its depth. -/
theorem run_spec (isDepth : IsDepth l.Leads depth) (nodup : rest.Nodup)
    (h : s.Accounts l rest (l.owed rest)) (found : s.Found l depth (l.LeadsBut rest)) :
    ∃ depths, run l s = some depths ∧
      ∀ q, depths[q]? = if q ∈ l.cells then some (depth q) else none := by
  fun_induction run l s generalizing rest with
  | case1 s idle =>
    obtain rfl := h.rest_eq_nil isDepth.acyclic idle
    exact ⟨s.depths, rfl, found.getElem?_eq isDepth⟩
  | case2 s p ready top failed =>
    obtain ⟨t, followed, -⟩ := follow_spec isDepth nodup h found top
    rw [followed] at failed
    cases failed
  | case3 s p ready top t followed ih =>
    obtain ⟨u, same, accounts, foundMore⟩ := follow_spec isDepth nodup h found top
    rw [followed] at same
    cases same
    exact ih (nodup.erase p) accounts foundMore

end Descent

/-! ## The start -/

def zeros (cells : List Position) : PositionMap Nat := .ofList (cells.map (·, 0)) Position.order

/-- The number of links to each of the cells `records`, which are gone through in their order. -/
def counts (l : Links) (records : List Position) : PositionMap Nat :=
  (records.flatMap l.next).foldl (fun counts p => counts.modify p (· + 1)) (zeros records)

/-- The descent before any cell is taken up. The links of the cells `records` are counted in their
order, and those of the cells `seeds` to which none leads are stacked, the last one on top. -/
def Descent.start (l : Links) (records seeds : List Position) : Descent :=
  let waiting := l.counts records
  let ready := seeds.filter fun p => waiting[p]? = some 0
  ⟨waiting, ready.reverse, zeros ready⟩

/-- The depths that a descent finds which goes through the cells in the orders `records` and
`seeds`. -/
def descend (l : Links) (records seeds : List Position) : Option (PositionMap Nat) :=
  (Descent.start l records seeds).run l

variable {l : Links} {p q : Position} {records seeds : List Position} {depth : Position → Nat}

theorem mem_zeros : p ∈ zeros records ↔ p ∈ records := by
  rw [zeros, Std.ExtTreeMap.mem_ofList]
  simp

theorem getElem?_zeros (nodup : records.Nodup) :
    (zeros records)[p]? = if p ∈ records then some 0 else none := by
  have distinct : (records.map fun q => (q, 0)).Pairwise
      fun a b => ¬ Position.order a.1 b.1 = .eq := by
    refine List.pairwise_map.mpr (nodup.imp fun {a b} other same => ?_)
    exact other (Std.LawfulEqCmp.eq_of_compare same)
  split
  · next mem =>
    exact Std.ExtTreeMap.getElem?_ofList_of_mem Std.ReflCmp.compare_self distinct
      (List.mem_map_of_mem mem)
  · next apart => exact Std.ExtTreeMap.getElem?_eq_none (mt mem_zeros.mp apart)

theorem getElem?_foldl_modify (counts : PositionMap Nat) (targets : List Position) :
    (targets.foldl (fun counts p => counts.modify p (· + 1)) counts)[p]? =
      counts[p]?.map (· + targets.count p) := by
  induction targets generalizing counts with
  | nil => simp
  | cons q targets ih =>
    rw [List.foldl_cons, ih, Std.ExtTreeMap.getElem?_modify, List.count_cons]
    by_cases same : q = p
    · subst same
      simp [Nat.add_comm]
    · simp [same]

theorem getElem?_counts (nodup : records.Nodup) :
    (l.counts records)[p]? = if p ∈ records then some (l.owed records p) else none := by
  rw [counts, getElem?_foldl_modify, getElem?_zeros nodup, owed]
  split <;> simp

theorem getElem?_counts_of_perm (perm : records.Perm l.cells) (nodup : records.Nodup) :
    (l.counts records)[p]? = if p ∈ l.cells then some (l.owed l.cells p) else none := by
  have owed : l.owed records p = l.owed l.cells p := (perm.flatMap_right l.next).count_eq p
  rw [getElem?_counts nodup, owed]
  simp only [perm.mem_iff]

theorem not_leadsBut_cells : ¬ l.LeadsBut l.cells p q := fun both => both.2 (mem_of_leads both.1)

theorem owed_cells_eq_zero_iff : l.owed l.cells p = 0 ↔ ∀ q, ¬ l.Leads q p :=
  owed_eq_zero_iff.trans
    ⟨fun none q lead => none q (mem_of_leads lead) lead, fun none q _ => none q⟩

theorem start_accounts (nodup : l.cells.Nodup) (perm : records.Perm l.cells)
    (permSeeds : seeds.Perm l.cells) :
    (Descent.start l records seeds).Accounts l l.cells (l.owed l.cells) := by
  have counted (p : Position) := getElem?_counts_of_perm (p := p) perm (perm.nodup_iff.mpr nodup)
  refine ⟨fun _ => id, fun p n => ?_, fun p => ?_, ?_, fun p hp _ => hp⟩
  · rw [Descent.start, counted]
    grind
  · simp only [Descent.start, List.mem_reverse, List.mem_filter, permSeeds.mem_iff,
      decide_eq_true_eq, counted]
    grind
  · exact List.nodup_reverse.mpr ((permSeeds.nodup_iff.mpr nodup).filter _)

theorem start_found (nodup : l.cells.Nodup) (perm : records.Perm l.cells)
    (permSeeds : seeds.Perm l.cells) :
    (Descent.start l records seeds).Found l depth (l.LeadsBut l.cells) := by
  have accounts := start_accounts nodup perm permSeeds
  have nodupReady := List.nodup_reverse.mp accounts.nodup
  refine ⟨fun p => ?_, fun p => ?_, fun a p both => absurd both not_leadsBut_cells⟩
  · have ready := accounts.ready p
    rw [owed_cells_eq_zero_iff] at ready
    simp only [not_leadsBut_cells, exists_false, false_or, ← ready]
    exact mem_zeros.trans List.mem_reverse.symm
  · rw [Std.ExtTreeMap.getD_eq_getD_getElem?, Descent.start, getElem?_zeros nodupReady]
    split <;> exact Nat.zero_le _

/-- **Depths in any order.** Whatever the orders in which the cells with links are gone through,
each once, no link is followed to a cell that waits for none, and exactly these cells get their
depths. -/
theorem descend_eq (isDepth : IsDepth l.Leads depth) (nodup : l.cells.Nodup)
    (perm : records.Perm l.cells) (permSeeds : seeds.Perm l.cells) :
    ∃ depths, l.descend records seeds = some depths ∧
      ∀ p, depths[p]? = if p ∈ l.cells then some (depth p) else none :=
  Descent.run_spec isDepth nodup (start_accounts nodup perm permSeeds)
    (start_found nodup perm permSeeds)

end Links

end Worksheet
