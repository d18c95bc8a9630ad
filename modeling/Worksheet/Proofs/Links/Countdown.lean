import Worksheet.Proofs.Links.Descent

/-!
# Orders by counting down

An order can be found with nothing but counts: for each of the cells, how many links lead to it from
the others. The cells whose count is zero are ready; the first of them is listed, the count of every
cell that it leads to goes down by one, and a cell whose count has come down to zero is ready in its
turn. Counts of zero are kept, so a count might be made to go below zero; here this is an error.

It never happens: a count is always the number of links from the cells that are still to come
(`Progress.Counts`), and only these links are still to be followed. If the counts of zero are left
out, a countdown goes through the same states as an order, so both list the same cells.

At each place an order has the first cell that can stand there. So it comes before every other list
that has each cell after those that lead to it, at the first place where the two differ.

Results:
* `Progress.Counts.listDown`: listing a cell keeps the counts, and none of them goes below zero.
* `countedOrder_eq`: a countdown ends without an error and gives the order.
* `order_least`: of all lists that respect the links, the order is the first by name.
-/
namespace Worksheet.Links

variable {l : Links} {p q : Position} {cells : PositionSet}

namespace Progress

/-- One cell that `p` waits for has been listed. It is an error if `p` waits for none. -/
def countDown (s : Progress) (p : Position) : Option Progress :=
  match s.waiting[p]? with
  | none => some s
  | some 0 => none
  | some (count + 1) =>
    some ⟨s.waiting.insert p count, if count = 0 then s.ready.insert p else s.ready⟩

/-- The progress when the ready cell `p` is listed. -/
def listDown (l : Links) (s : Progress) (p : Position) : Option Progress :=
  (l.next p).foldlM countDown { s with ready := s.ready.erase p }

/-- The same progress without the counts of the cells that wait for none. -/
def positive (s : Progress) : Progress :=
  { s with waiting := s.waiting.filter fun _ count => 0 < count }

variable {s t : Progress} {known targets rest other : List Position} {owed : Position → Nat} {n : Nat}

theorem getElem?_positive : s.positive.waiting[p]? = some n ↔ s.waiting[p]? = some n ∧ 0 < n := by
  rw [positive, Std.ExtTreeMap.getElem?_filter', Option.filter_eq_some_iff, decide_eq_true_eq]

theorem eq_of_iff
    (waiting : ∀ (p : Position) (n : Nat), s.waiting[p]? = some n ↔ t.waiting[p]? = some n)
    (ready : ∀ p, p ∈ s.ready ↔ p ∈ t.ready) : s = t := by
  have waiting : s.waiting = t.waiting :=
    Std.ExtTreeMap.ext_getElem? fun p => Option.ext (waiting p)
  have ready : s.ready = t.ready := Std.ExtTreeSet.ext_mem ready
  cases s
  cases t
  simp_all

/-! ## Without the counts of zero -/

theorem release_positive (h : s.countDown p = some t) : s.positive.release p = t.positive := by
  unfold countDown at h
  split at h
  · next absent =>
    cases h
    have : s.positive.waiting[p]? = none :=
      Option.eq_none_iff_forall_ne_some.mpr fun n present => by
        rw [getElem?_positive, absent] at present
        cases present.1
    rw [release, this]
  · cases h
  · next count present =>
    cases h
    have : s.positive.waiting[p]? = some (count + 1) :=
      getElem?_positive.mpr ⟨present, Nat.succ_pos count⟩
    simp only [release, this]
    split
    · next last =>
      refine eq_of_iff (fun q n => ?_) fun q => ?_
      · rw [getElem?_positive]
        have := getElem?_positive (s := s) (p := q) (n := n)
        simp only [Std.ExtTreeMap.getElem?_erase, Std.ExtTreeMap.getElem?_insert,
          Std.LawfulEqCmp.compare_eq_iff_eq]
        grind
      · rw [positive, positive, if_pos (by omega)]
    · next more =>
      refine eq_of_iff (fun q n => ?_) fun q => ?_
      · rw [getElem?_positive]
        have := getElem?_positive (s := s) (p := q) (n := n)
        simp only [Std.ExtTreeMap.getElem?_insert, Std.LawfulEqCmp.compare_eq_iff_eq]
        grind
      · rw [positive, positive, if_neg (by omega)]

theorem foldl_release_positive (h : targets.foldlM countDown s = some t) :
    targets.foldl release s.positive = t.positive := by
  induction targets generalizing s with
  | nil => cases h; rfl
  | cons p targets ih =>
    rw [List.foldlM_cons, Option.bind_eq_bind, Option.bind_eq_some_iff] at h
    obtain ⟨u, first, others⟩ := h
    rw [List.foldl_cons, release_positive first, ih others]

theorem list_positive (h : listDown l s p = some t) : list l s.positive p = t.positive :=
  foldl_release_positive h

/-- Lists the cells that become ready, always the first one of them. -/
def runDown (l : Links) (s : Progress) : Option (List Position) :=
  match _first : s.ready.min? with
  | none => some []
  | some p =>
    match _listed : listDown l s p with
    | none => none
    | some t => (runDown l t).map (p :: ·)
termination_by s.positive.size
decreasing_by
  rw [← list_positive _listed]
  exact size_list_lt l _first

/-! ## No count goes below zero -/

/-- Each of some cells has a count, and it is as many as the cell is owed. -/
def Counts (s : Progress) (known : List Position) (owed : Position → Nat) : Prop :=
  ∀ p n, s.waiting[p]? = some n ↔ p ∈ known ∧ owed p = n

theorem Counts.countDown (h : s.Counts known owed) (pos : 0 < owed p) :
    ∃ t, s.countDown p = some t ∧ t.Counts known fun q => owed q - if p = q then 1 else 0 := by
  unfold Progress.countDown
  split
  · next absent =>
    -- No count is kept: `p` is none of the cells.
    have apart : p ∉ known := fun mem => by
      rw [(h p _).mpr ⟨mem, rfl⟩] at absent
      cases absent
    refine ⟨s, rfl, fun q n => ?_⟩
    rw [h q n]; grind
  · next none => exact absurd ((h p 0).mp none).2 (Nat.ne_of_gt pos)
  · next count present =>
    obtain ⟨mem, owes⟩ := (h p (count + 1)).mp present
    refine ⟨_, rfl, fun q n => ?_⟩
    have := h q n
    simp only [Std.ExtTreeMap.getElem?_insert, Std.LawfulEqCmp.compare_eq_iff_eq]
    grind

theorem Counts.foldlM_countDown (h : s.Counts known owed)
    (enough : ∀ q, targets.count q ≤ owed q) :
    ∃ t, targets.foldlM Progress.countDown s = some t ∧
      t.Counts known fun q => owed q - targets.count q := by
  induction targets generalizing s owed with
  | nil => exact ⟨s, rfl, by simpa using h⟩
  | cons p targets ih =>
    obtain ⟨t, first, counts⟩ := h.countDown (Nat.lt_of_lt_of_le (by simp) (enough p))
    obtain ⟨u, others, counts⟩ := ih counts fun q => by
      have := enough q
      simp only [List.count_cons, beq_iff_eq] at this
      omega
    refine ⟨u, ?_, ?_⟩
    · rw [List.foldlM_cons, first]
      exact others
    · simpa only [List.count_cons, beq_iff_eq, Nat.sub_sub, Nat.add_comm] using counts

/-- Listing a cell keeps the counts of what the cells that remain after it lead to. -/
theorem Counts.listDown (h : s.Counts known (l.owed rest)) (hp : p ∈ rest) :
    ∃ t, listDown l s p = some t ∧ t.Counts known (l.owed (rest.erase p)) := by
  have taken : Counts { s with ready := s.ready.erase p } known (l.owed rest) := h
  have enough (q : Position) : (l.next p).count q ≤ l.owed rest q := by
    rw [owed_eq_add hp]
    exact Nat.le_add_right _ _
  obtain ⟨t, listed, counts⟩ := taken.foldlM_countDown enough
  exact ⟨t, listed, by simpa only [← owed_erase hp] using counts⟩

theorem run_eq_nil (h : s.ready.min? = none) : run l s = [] := by
  rw [run]
  split <;> simp_all

theorem run_eq_cons (h : s.ready.min? = some p) : run l s = p :: run l (list l s p) := by
  rw [run]
  split <;> simp_all

/-- A countdown lists the same cells as an order. -/
theorem Counts.runDown (h : s.Counts known (l.owed rest))
    (accounts : s.positive.Accounts rest (l.owed rest)) (nodup : rest.Nodup) :
    runDown l s = some (run l s.positive) := by
  fun_induction Progress.runDown l s generalizing rest with
  | case1 s idle => rw [run_eq_nil (s := s.positive) idle]
  | case2 s p first failed =>
    have mem := ((accounts.ready p).mp (Std.ExtTreeSet.min?_mem first)).1
    obtain ⟨t, listed, -⟩ := h.listDown mem
    rw [listed] at failed
    cases failed
  | case3 s p first t listed ih =>
    have ready : p ∈ s.positive.ready := Std.ExtTreeSet.min?_mem first
    obtain ⟨u, same, counts⟩ := h.listDown ((accounts.ready p).mp ready).1
    rw [listed] at same
    cases same
    have remain := accounts.list nodup ready
    rw [list_positive listed] at remain
    rw [ih counts remain (nodup.erase p), run_eq_cons (s := s.positive) first, list_positive listed]
    rfl

/-! ## The first of all lists -/

/-- A run comes first by name among the lists of the same cells that respect the links. -/
theorem run_least (acyclic : Acyclic l.Leads) (h : s.Accounts rest (l.owed rest))
    (nodup : rest.Nodup)
    (named : ∀ p ∈ rest, ∀ q ∈ rest, Position.order p q = .lt → p.name < q.name)
    (perm : other.Perm rest) (sorted : other.Pairwise fun a b => ¬ l.Leads b a) :
    other = run l s ∨ List.Lex (fun p q => p.name < q.name) (run l s) other := by
  fun_induction run l s generalizing rest other with
  | case1 s idle =>
    have finished := (run_spec acyclic h nodup).1
    rw [run_eq_nil idle] at finished
    exact .inl (List.perm_nil.mp (perm.trans finished.symm))
  | case2 s p first ih =>
    have hp := Std.ExtTreeSet.min?_mem first
    obtain ⟨mem, -⟩ := (h.ready p).mp hp
    cases other with
    | nil => cases perm.mem_iff.mpr mem
    | cons q others =>
      obtain ⟨free, sortedTail⟩ := List.pairwise_cons.mp sorted
      have memq : q ∈ rest := perm.mem_iff.mp List.mem_cons_self
      -- Nothing leads to the head of the other list, so it was ready as well.
      have ready : q ∈ s.ready := (h.ready q).mpr ⟨memq, owed_eq_zero_iff.mpr fun r hr => by
        rcases List.mem_cons.mp (perm.mem_iff.mpr hr) with rfl | later
        · exact acyclic.not_self r
        · exact free r later⟩
      have le := (Std.ExtTreeSet.min?_eq_some_iff_mem_and_forall.mp first).2 q ready
      rcases Ordering.isLE_iff_eq_lt_or_eq_eq.mp le with lt | same
      · exact .inr (.rel (named p mem q memq lt))
      · obtain rfl := Std.LawfulEqCmp.eq_of_compare same
        have tail : others.Perm (rest.erase p) :=
          (perm.trans (List.perm_cons_erase mem)).cons_inv
        have within {r : Position} (hr : r ∈ rest.erase p) : r ∈ rest := List.mem_of_mem_erase hr
        rcases ih (h.list nodup hp) (nodup.erase p)
          (fun a ha b hb => named a (within ha) b (within hb)) tail sortedTail with rfl | earlier
        · exact .inl rfl
        · exact .inr (.cons earlier)

end Progress

/-! ## The start -/

/-- The progress before any of some cells is listed, with a count for every one of them. -/
def countedStart (l : Links) (cells : PositionSet) : Progress :=
  let waiting := l.counts cells.toList
  ⟨waiting, cells.filter fun p => waiting[p]? = some 0⟩

/-- Some cells, each after those of them that it depends on, by counting down. -/
def countedOrder (l : Links) (cells : PositionSet) : Option (List Position) :=
  (l.countedStart cells).runDown l

/-- A cell and all that depend on it, each after those of them that it depends on, by counting down.
-/
def countedCascade (l : Links) (start : Position) : Option (List Position) :=
  l.countedOrder (.ofList (l.walk start) Position.order)

theorem countedStart_counts (l : Links) (cells : PositionSet) :
    (l.countedStart cells).Counts cells.toList (l.owed cells.toList) := by
  intro p n
  rw [countedStart, getElem?_counts (nodup_toList cells)]
  grind

theorem positive_countedStart (l : Links) (cells : PositionSet) :
    (l.countedStart cells).positive = l.startAmong cells := by
  have counted := l.countedStart_counts cells
  have accounts := l.startAmong_accounts cells
  refine Progress.eq_of_iff (fun p n => ?_) fun p => ?_
  · rw [Progress.getElem?_positive, counted p n, accounts.waiting p n]
    tauto
  · have ready : p ∈ (l.countedStart cells).positive.ready ↔
        p ∈ cells ∧ (l.countedStart cells).waiting[p]? = some 0 := by
      simp only [Progress.positive, countedStart, Std.ExtTreeSet.mem_filter, Std.ExtTreeSet.get_eq,
        decide_eq_true_eq, exists_prop]
    rw [ready, counted p 0, accounts.ready p, Std.ExtTreeSet.mem_toList, and_self_left]

/-! ## Orders and cascades -/

/-- A countdown ends without an error and gives the order, whatever the links. -/
theorem countedOrder_eq (l : Links) (cells : PositionSet) :
    l.countedOrder cells = some (l.order cells) := by
  have accounts := l.startAmong_accounts cells
  rw [← positive_countedStart] at accounts
  rw [countedOrder, (l.countedStart_counts cells).runDown accounts (nodup_toList cells),
    positive_countedStart, order]

theorem countedCascade_eq (l : Links) (start : Position) :
    l.countedCascade start = some (l.cascade start) :=
  countedOrder_eq l _

/-- An order comes first by name among the lists of the same cells that respect the links. -/
theorem order_least (acyclic : Acyclic l.Leads)
    (named : ∀ p ∈ cells, ∀ q ∈ cells, Position.order p q = .lt → p.name < q.name)
    {other : List Position} (nodup : other.Nodup) (same : ∀ p, p ∈ other ↔ p ∈ cells)
    (sorted : other.Pairwise fun a b => ¬ l.Leads b a) :
    other = l.order cells ∨ List.Lex (fun p q => p.name < q.name) (l.order cells) other := by
  have perm : other.Perm cells.toList :=
    (List.perm_ext_iff_of_nodup nodup (nodup_toList cells)).mpr fun p => by
      rw [same p, Std.ExtTreeSet.mem_toList]
  refine Progress.run_least acyclic (startAmong_accounts l cells) (nodup_toList cells)
    (fun p hp q hq => ?_) perm sorted
  exact named p (Std.ExtTreeSet.mem_toList.mp hp) q (Std.ExtTreeSet.mem_toList.mp hq)

end Worksheet.Links
