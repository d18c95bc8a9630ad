import Mathlib.Order.WellFounded
import Worksheet.Proofs.Links.Walk

/-!
# What an order lists

While cells are listed, each cell that is still to come waits for as many of the others as have
links to it (`Progress.Accounts`). Listing a ready cell keeps these accounts, and as long as cells
remain one of them is ready, because links that lead back for ever would close a cycle.

Results:
* `Progress.Accounts.list`: listing a ready cell keeps the accounts of the cells that remain.
* `mem_order_iff`, `nodup_order`: an order lists exactly the given cells, each once.
* `leads_before`, `leads_before_cascade`: of two listed cells, the one that leads to the other
  stands before it.
* `mem_cascade_iff`: a cascade lists the cells that links lead to from its start.
-/
namespace Worksheet.Links

variable {l : Links} {p q : Position} {cells : PositionSet} {before after : List Position}

/-- The number of links that lead from some cells to `p`. -/
def owed (l : Links) (from_ : List Position) (p : Position) : Nat := (from_.flatMap l.next).count p

theorem owed_eq_zero_iff {rest : List Position} : l.owed rest p = 0 ↔ ∀ q ∈ rest, ¬ l.Leads q p := by
  simp only [owed, List.count_eq_zero, List.mem_flatMap, not_exists, not_and, Leads]

theorem owed_eq_add {rest : List Position} (hp : p ∈ rest) (q : Position) :
    l.owed rest q = (l.next p).count q + l.owed (rest.erase p) q := by
  have := ((List.perm_cons_erase hp).flatMap_right l.next).count_eq q
  rwa [List.flatMap_cons, List.count_append] at this

theorem owed_erase {rest : List Position} (hp : p ∈ rest) (q : Position) :
    l.owed (rest.erase p) q = l.owed rest q - (l.next p).count q := by
  rw [owed_eq_add hp, Nat.add_sub_cancel_left]

/-- Of some cells, one is led to by none of them. -/
theorem exists_unowed {rest : List Position} (acyclic : Acyclic l.Leads) (more : rest ≠ []) :
    ∃ p ∈ rest, l.owed rest p = 0 := by
  obtain ⟨p, hp⟩ := List.exists_mem_of_ne_nil rest more
  obtain ⟨p, hp, first⟩ := acyclic.wellFounded.has_min {p | p ∈ rest} ⟨p, hp⟩
  exact ⟨p, hp, owed_eq_zero_iff.mpr first⟩

theorem nodup_toList (cells : PositionSet) : cells.toList.Nodup :=
  Std.ExtTreeSet.distinct_toList.imp fun different same =>
    different (Std.LawfulEqCmp.compare_eq_iff_eq.mpr same)

namespace Progress

/-- Each cell that remains waits for as many cells as it is owed, and is ready if that is none. -/
structure Accounts (s : Progress) (rest : List Position) (owed : Position → Nat) : Prop where
  waiting : ∀ p n, s.waiting[p]? = some n ↔ p ∈ rest ∧ 0 < n ∧ owed p = n
  ready : ∀ p, p ∈ s.ready ↔ p ∈ rest ∧ owed p = 0

variable {s : Progress} {rest : List Position} {owed : Position → Nat}

theorem Accounts.release (h : s.Accounts rest owed) (p : Position) :
    (s.release p).Accounts rest fun q => owed q - if p = q then 1 else 0 := by
  unfold Progress.release
  split
  · next absent =>
    -- No count is kept: `p` does not remain, or it is owed nothing already.
    have none : p ∈ rest → owed p = 0 := by
      intro hp
      refine Nat.eq_zero_of_not_pos fun pos => ?_
      rw [(h.waiting p _).mpr ⟨hp, pos, rfl⟩] at absent
      cases absent
    refine ⟨fun q n => ?_, fun q => ?_⟩
    · rw [h.waiting q n]; grind
    · rw [h.ready q]; grind
  · next count present =>
    obtain ⟨mem, pos, same⟩ := (h.waiting p count).mp present
    split
    · next last =>
      refine ⟨fun q n => ?_, fun q => ?_⟩
      · have := h.waiting q n
        simp only [Std.ExtTreeMap.getElem?_erase, Std.LawfulEqCmp.compare_eq_iff_eq]
        grind
      · rw [mem_insert_iff, h.ready q]; grind
    · next more =>
      refine ⟨fun q n => ?_, fun q => ?_⟩
      · have := h.waiting q n
        simp only [Std.ExtTreeMap.getElem?_insert, Std.LawfulEqCmp.compare_eq_iff_eq]
        grind
      · rw [h.ready q]; grind

theorem Accounts.foldl_release (h : s.Accounts rest owed) (released : List Position) :
    (released.foldl Progress.release s).Accounts rest fun q => owed q - released.count q := by
  induction released generalizing s owed with
  | nil => simpa using h
  | cons p released ih =>
    have := ih (h.release p)
    simpa only [List.foldl_cons, List.count_cons, beq_iff_eq, Nat.sub_sub, Nat.add_comm] using this

/-- Listing a ready cell keeps the accounts of the cells that remain after it. -/
theorem Accounts.list (h : s.Accounts rest (l.owed rest)) (nodup : rest.Nodup) (hp : p ∈ s.ready) :
    (Progress.list l s p).Accounts (rest.erase p) (l.owed (rest.erase p)) := by
  obtain ⟨mem, none⟩ := (h.ready p).mp hp
  have taken : Accounts { s with ready := s.ready.erase p } (rest.erase p) (l.owed rest) := by
    refine ⟨fun q n => ?_, fun q => ?_⟩
    · rw [h.waiting q n, nodup.mem_erase_iff]
      grind
    · rw [Std.ExtTreeSet.mem_erase, h.ready q, nodup.mem_erase_iff,
        Ne, Std.LawfulEqCmp.compare_eq_iff_eq, eq_comm, and_assoc]
  have := taken.foldl_release (l.next p)
  simpa only [Progress.list, ← owed_erase mem] using this

theorem run_spec (acyclic : Acyclic l.Leads) (h : s.Accounts rest (l.owed rest))
    (nodup : rest.Nodup) :
    (run l s).Perm rest ∧ (run l s).Pairwise fun a b => ¬ l.Leads b a := by
  fun_induction run l s generalizing rest with
  | case1 s idle =>
    have empty : rest = [] := by
      refine Decidable.byContradiction fun more => ?_
      obtain ⟨p, hp, none⟩ := exists_unowed acyclic more
      have ready := (h.ready p).mpr ⟨hp, none⟩
      rw [Std.ExtTreeSet.min?_eq_none_iff.mp idle] at ready
      exact Std.ExtTreeSet.not_mem_empty ready
    exact ⟨empty ▸ .refl _, .nil⟩
  | case2 s p first ih =>
    have hp := Std.ExtTreeSet.min?_mem first
    obtain ⟨mem, none⟩ := (h.ready p).mp hp
    obtain ⟨perm, sorted⟩ := ih (h.list nodup hp) (nodup.erase p)
    refine ⟨(perm.cons p).trans (List.perm_cons_erase mem).symm, List.pairwise_cons.mpr ⟨?_, sorted⟩⟩
    intro q hq
    exact owed_eq_zero_iff.mp none q (List.mem_of_mem_erase (perm.mem_iff.mp hq))

end Progress

/-! ## The start -/

theorem getElem?_foldl_await (waiting : PositionMap Nat) (awaited : List Position) (p : Position) :
    (awaited.foldl await waiting)[p]? =
      if awaited.count p = 0 then waiting[p]? else some (waiting.getD p 0 + awaited.count p) := by
  induction awaited generalizing waiting with
  | nil => simp
  | cons q awaited ih =>
    rw [List.foldl_cons, ih, List.count_cons]
    by_cases same : q = p
    · subst same
      simp only [await, Std.ExtTreeMap.getElem?_insert_self, Std.ExtTreeMap.getD_insert_self,
        beq_self_eq_true, if_true, Nat.add_one_ne_zero, if_false]
      split
      · next none => rw [none]
      · rw [Nat.add_right_comm, Nat.add_assoc]
    · simp only [await, Std.ExtTreeMap.getElem?_insert, Std.ExtTreeMap.getD_insert,
        Std.LawfulEqCmp.compare_eq_iff_eq, if_neg same, beq_iff_eq, Nat.add_zero]

theorem startAmong_accounts (l : Links) (cells : PositionSet) :
    (l.startAmong cells).Accounts cells.toList (l.owed cells.toList) := by
  have among : (cells.toList.flatMap fun q => (l.next q).filter (· ∈ cells)) =
      (cells.toList.flatMap l.next).filter (· ∈ cells) := by
    rw [List.filter_flatMap]
  have waiting (p : Position) (n : Nat) : (l.waitingAmong cells)[p]? = some n ↔
      p ∈ cells.toList ∧ 0 < n ∧ l.owed cells.toList p = n := by
    rw [waitingAmong, among, getElem?_foldl_await, Std.ExtTreeSet.mem_toList]
    by_cases hp : p ∈ cells
    · rw [List.count_filter (by simpa using hp), Std.ExtTreeMap.getElem?_empty,
        Std.ExtTreeMap.getD_empty, owed]
      grind
    · have : p ∉ (cells.toList.flatMap l.next).filter (· ∈ cells) := by simp [hp]
      simp [List.count_eq_zero.mpr this, hp]
  refine ⟨waiting, fun p => ?_⟩
  have unowed : ¬ (l.waitingAmong cells).contains p = true ↔
      (p ∈ cells.toList → l.owed cells.toList p = 0) := by
    rw [Std.ExtTreeMap.contains_iff_mem, Std.ExtTreeMap.mem_iff_isSome_getElem?,
      Option.isSome_iff_exists]
    constructor
    · intro unlisted hp
      exact Nat.eq_zero_of_not_pos fun pos => unlisted ⟨_, (waiting p _).mpr ⟨hp, pos, rfl⟩⟩
    · intro none more
      obtain ⟨n, hn⟩ := more
      obtain ⟨hp, pos, same⟩ := (waiting p n).mp hn
      have := none hp
      omega
  simp only [startAmong, Std.ExtTreeSet.mem_filter, Std.ExtTreeSet.get_eq, Bool.not_eq_true',
    ← Bool.not_eq_true, unowed, Std.ExtTreeSet.mem_toList, exists_prop]
  tauto

/-! ## Orders and cascades -/

theorem order_spec (acyclic : Acyclic l.Leads) (cells : PositionSet) :
    (l.order cells).Perm cells.toList ∧ (l.order cells).Pairwise fun a b => ¬ l.Leads b a :=
  Progress.run_spec acyclic (startAmong_accounts l cells) (Links.nodup_toList cells)

/-- An order lists exactly the given cells. -/
theorem mem_order_iff (acyclic : Acyclic l.Leads) : p ∈ l.order cells ↔ p ∈ cells := by
  rw [(order_spec acyclic cells).1.mem_iff, Std.ExtTreeSet.mem_toList]

theorem nodup_order (acyclic : Acyclic l.Leads) (cells : PositionSet) : (l.order cells).Nodup :=
  (order_spec acyclic cells).1.nodup_iff.mpr (nodup_toList cells)

/-- Of the cells of an order, those that lead to a cell stand before it. -/
theorem leads_before (acyclic : Acyclic l.Leads) (split : l.order cells = before ++ p :: after)
    (hq : q ∈ cells) (lead : l.Leads q p) : q ∈ before := by
  have listed := (mem_order_iff acyclic).mpr hq
  rw [split, List.mem_append, List.mem_cons] at listed
  rcases listed with hq | rfl | later
  · exact hq
  · exact absurd lead (acyclic.not_self q)
  · have sorted := (order_spec acyclic cells).2
    rw [split] at sorted
    exact absurd lead (List.rel_of_pairwise_cons (List.pairwise_append.mp sorted).2.1 later)

theorem mem_ofList_walk :
    q ∈ Std.ExtTreeSet.ofList (l.walk p) Position.order ↔ l.Reaches p q := by
  rw [Std.ExtTreeSet.mem_ofList, List.contains_iff_mem, mem_walk_iff]

theorem mem_cascade_iff (acyclic : Acyclic l.Leads) : q ∈ l.cascade p ↔ l.Reaches p q := by
  rw [cascade, mem_order_iff acyclic, mem_ofList_walk]

theorem leads_before_cascade {start : Position} (acyclic : Acyclic l.Leads)
    (split : l.cascade start = before ++ p :: after) (hq : q ∈ l.cascade start)
    (lead : l.Leads q p) : q ∈ before :=
  leads_before acyclic split ((mem_order_iff acyclic).mp hq) lead

end Worksheet.Links
