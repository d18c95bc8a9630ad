import Worksheet.Proofs.Grid.Order
import Worksheet.Proofs.Links.Descent
import Worksheet.Proofs.Sheet.Removal
import Worksheet.Proofs.Sheet.Replay

/-!
# The order of a dump

A pass over the records finds their depths, and then the formulas are sorted by depth and, within
one depth, by name (`dumpIn`). The orders in which the records are gone through make no difference:
the depths are the same in all of them, and the sorting leaves no two cells equal. A sheet's own
dump is sorted by depth only, but it starts from formulas in the order of cells, and sorting keeps
this order within a depth.

A cell is deeper than all that it depends on, so the formulas of these stand before its own. While
the formulas are entered in this order into a new sheet, no formula refers yet to the cell whose
turn it is, and the values that its own formula refers to are final. So every entry gives one cell
its final value and changes no other.

Results:
* `Settled.isDepth`: the depths of a settled sheet.
* `Settled.descend_eq`, `Settled.dumpIn_eq`: in whatever order the records are gone through.
* `Settled.inOrder_dump`: what a dump lists, and in which order.
* `PartOf.results_eq`: what comes of entering the formulas of a dump one by one.
* `dump_edits`: all this after every history.
-/
namespace Worksheet.Sheet

open Relation

variable {s t : Sheet} {p q : Position} {f : Formula} {text : String} {records seeds : List Position}
  {before after : List (Position × String)}

/-! ## Depths -/

theorem Settled.isDepth (h : s.Settled) : IsDepth s.Feeds s.depth where
  top p free := by
    have bare : s.references p = [] := List.eq_nil_iff_forall_not_mem.mpr free
    rw [h.depth_eq, bare, List.map_nil, List.foldl_nil]
  under p led := by
    have le_iff (n : Nat) : s.depth p ≤ n ↔ ∀ q, s.Feeds q p → s.depth q + 1 ≤ n := by
      rw [h.depth_eq, Expr.foldl_max_le_iff, List.forall_mem_map]
      exact and_iff_right (Nat.zero_le n)
    have above := (le_iff (s.depth p)).mp (Nat.le_refl _)
    refine ⟨?_, fun n deeper => ?_⟩
    · -- Otherwise a depth of one less would be enough.
      refine Classical.byContradiction fun unreached => ?_
      have less : s.depth p ≤ s.depth p - 1 := (le_iff _).mpr fun q feeds => by
        have := above q feeds
        have : s.depth p ≠ s.depth q + 1 := fun same => unreached ⟨q, feeds, same⟩
        omega
      obtain ⟨q, feeds⟩ := led
      have := above q feeds
      omega
    · obtain ⟨q, feeds, rfl⟩ := deeper
      exact above q feeds

theorem Settled.leads_eq (h : s.Settled) : s.links.Leads = s.Feeds := by
  funext a b
  exact propext h.mem_dependents_iff

/-- Whatever the orders in which the records are gone through, every record gets its depth. -/
theorem Settled.descend_eq (h : s.Settled) (perm : records.Perm s.cells.keys)
    (permSeeds : seeds.Perm s.cells.keys) :
    ∃ depths, s.links.descend records seeds = some depths ∧
      ∀ p : Position, depths[p]? = if p ∈ s.cells then some (s.depth p) else none := by
  obtain ⟨depths, found, values⟩ := Links.descend_eq (l := s.links) (h.leads_eq ▸ h.isDepth)
    Std.ExtTreeMap.nodup_keys perm permSeeds
  refine ⟨depths, found, fun p => ?_⟩
  simpa only [links, Std.ExtTreeMap.mem_keys] using values p

/-! ## How a dump is sorted -/

/-- By depth, and cells of one depth in their order. -/
def byDepth (depth : Position → Nat) : Position → Position → Ordering :=
  compareLex (compareOn depth) Position.order

instance (depth : Position → Nat) : Std.TransCmp (byDepth depth) :=
  inferInstanceAs (Std.TransCmp (compareLex (compareOn depth) Position.order))

instance (depth : Position → Nat) : Std.LawfulEqCmp (byDepth depth) where
  eq_of_compare same := Std.LawfulEqCmp.eq_of_compare (compareLex_eq_eq.mp same).2

theorem byDepth_eq_lt_iff {depth : Position → Nat} : byDepth depth p q = .lt ↔
    depth p < depth q ∨ (depth p = depth q ∧ Position.order p q = .lt) := by
  rw [byDepth, compareLex, Ordering.then_eq_lt, compareOn, Nat.compare_eq_lt, Nat.compare_eq_eq]

theorem depth_le_of_byDepth {depth : Position → Nat} (lt : byDepth depth p q = .lt) :
    depth p ≤ depth q := by
  rcases byDepth_eq_lt_iff.mp lt with less | ⟨same, -⟩
  · exact Nat.le_of_lt less
  · exact Nat.le_of_eq same

theorem le_depth_trans (a b c : Position × String) :
    decide (s.depth a.1 ≤ s.depth b.1) = true → decide (s.depth b.1 ≤ s.depth c.1) = true →
      decide (s.depth a.1 ≤ s.depth c.1) = true := by
  simp only [decide_eq_true_eq]
  exact Nat.le_trans

theorem le_depth_total (a b : Position × String) :
    (decide (s.depth a.1 ≤ s.depth b.1) || decide (s.depth b.1 ≤ s.depth a.1)) = true := by
  simp only [Bool.or_eq_true, decide_eq_true_eq]
  exact Nat.le_total _ _

/-- The formulas of one depth are dumped in the order in which they are listed. -/
theorem filter_dump (s : Sheet) (n : Nat) :
    (s.dump.filter fun a => s.depth a.1 = n) = s.formulas.filter fun a => s.depth a.1 = n := by
  have level : (s.formulas.filter fun a => s.depth a.1 = n).Pairwise
      fun a b => decide (s.depth a.1 ≤ s.depth b.1) = true := by
    refine List.pairwise_of_forall_mem_list fun a ha b hb => decide_eq_true ?_
    rw [of_decide_eq_true (List.mem_filter.mp ha).2, of_decide_eq_true (List.mem_filter.mp hb).2]
  -- Sorting keeps this row in order, and it adds nothing of the same depth.
  have sub := List.sublist_mergeSort le_depth_trans le_depth_total level List.filter_sublist
  have row := sub.filter fun a => decide (s.depth a.1 = n)
  rw [List.filter_filter] at row
  simp only [Bool.and_self] at row
  have same := (List.mergeSort_perm s.formulas fun a b => s.depth a.1 ≤ s.depth b.1).filter
    fun a => s.depth a.1 = n
  exact (row.eq_of_length same.length_eq.symm).symm

/-- A dump is sorted by depth, and by the order of cells within one depth. -/
theorem pairwise_dump (s : Sheet) : s.dump.Pairwise fun a b => byDepth s.depth a.1 b.1 = .lt := by
  have levels : s.dump.Pairwise fun a b => decide (s.depth a.1 ≤ s.depth b.1) = true :=
    List.pairwise_mergeSort le_depth_trans le_depth_total s.formulas
  refine List.pairwise_iff_forall_sublist.mpr fun {a b} sub => byDepth_eq_lt_iff.mpr ?_
  rcases Nat.lt_or_eq_of_le (of_decide_eq_true (List.pairwise_iff_forall_sublist.mp levels sub)) with
    less | same
  · exact .inl less
  · refine .inr ⟨same, ?_⟩
    have level : [a, b].Sublist (s.formulas.filter fun c => s.depth c.1 = s.depth b.1) := by
      have := sub.filter fun c => decide (s.depth c.1 = s.depth b.1)
      rw [filter_dump] at this
      simpa [same] using this
    exact List.pairwise_iff_forall_sublist.mp s.sorted_formulas (level.trans List.filter_sublist)

theorem formulas_eq (s : Sheet) :
    s.formulas = s.cells.keys.filterMap fun p => (s.formula? p).map fun f => (p, f.text) := by
  rw [formulas, ← Std.ExtTreeMap.map_fst_toList_eq_keys, List.filterMap_map]
  refine List.filterMap_congr fun a ha => ?_
  obtain ⟨p, c⟩ := a
  have recorded : s.cells[p]? = some c := Std.ExtTreeMap.mem_toList_iff_getElem?_eq_some.mp ha
  simp only [Function.comp_apply, formula?, cell, recorded, Option.getD_some]

theorem eq_of_fst_eq {a b : Position × String} (ha : a ∈ s.formulas) (hb : b ∈ s.formulas)
    (same : a.1 = b.1) : a = b := by
  obtain ⟨f, hf, ht⟩ := mem_formulas.mp ha
  obtain ⟨g, hg, hu⟩ := mem_formulas.mp hb
  rw [same, hg] at hf
  cases hf
  exact Prod.ext same (ht.symm.trans hu)

/-! ## Dumps in any order -/

/-- The dump that a pass over the cells makes, which goes through the records in the order `records`
and takes up those to which no link leads in the order `seeds`. -/
def dumpIn (s : Sheet) (records seeds : List Position) : Option (List (Position × String)) :=
  (s.links.descend records seeds).map fun depths =>
    (records.filterMap fun p => (s.formula? p).map fun f => (p, f.text)).mergeSort fun a b =>
      (byDepth (fun p => depths.getD p 0) a.1 b.1).isLE

/-- Whatever the orders in which the records are gone through, the dump is the same. -/
theorem Settled.dumpIn_eq (h : s.Settled) (perm : records.Perm s.cells.keys)
    (permSeeds : seeds.Perm s.cells.keys) : s.dumpIn records seeds = some s.dump := by
  obtain ⟨depths, found, values⟩ := h.descend_eq perm permSeeds
  have depth : (fun p => depths.getD p 0) = s.depth := by
    funext p
    rw [Std.ExtTreeMap.getD_eq_getD_getElem?, values]
    split
    · rfl
    · next absent =>
      refine (h.isDepth.top p fun q feeds => absent ?_).symm
      obtain ⟨f, hf, -⟩ := feeds_iff.mp feeds
      exact mem_of_formula? hf
  have listed : (records.filterMap fun p => (s.formula? p).map fun f => (p, f.text)).Perm
      s.formulas := s.formulas_eq ▸ perm.filterMap _
  have total (p q : Position) :
      ((byDepth s.depth p q).isLE || (byDepth s.depth q p).isLE) = true := by
    have swap : byDepth s.depth q p = (byDepth s.depth p q).swap := Std.OrientedCmp.eq_swap
    rw [swap]
    cases byDepth s.depth p q <;> rfl
  rw [dumpIn, found, Option.map_some, depth, Option.some.injEq]
  refine List.Perm.eq_of_pairwise (fun a b ha hb le ge => ?_)
    (List.pairwise_mergeSort (fun a b c => Std.TransCmp.isLE_trans) (fun a b => total a.1 b.1) _)
    (s.pairwise_dump.imp fun {a b} lt => Ordering.isLE_of_eq_lt lt)
    ((List.mergeSort_perm _ _).trans (listed.trans (List.mergeSort_perm _ _).symm))
  exact eq_of_fst_eq (listed.mem_iff.mp (List.mem_mergeSort.mp ha)) (mem_dump.mp hb)
    (Std.LawfulEqCmp.eq_of_compare (Std.OrientedCmp.isLE_antisymm le ge))

/-! ## What a dump lists -/

/-- The formulas of a sheet are listed so that they can be entered in this order. -/
structure InOrder (s : Sheet) (listed : List (Position × String)) : Prop where
  /-- What is listed are the cells with formulas, and the texts of these formulas. -/
  mem : ∀ p text, (p, text) ∈ listed ↔ ∃ f, s.formula? p = some f ∧ f.text = text
  /-- Each cell is listed once. -/
  once : (listed.map Prod.fst).Nodup
  /-- Cells are listed by depth, and within one depth by their names. -/
  sorted : listed.Pairwise fun a b =>
    s.depth a.1 < s.depth b.1 ∨ (s.depth a.1 = s.depth b.1 ∧ a.1.name < b.1.name)
  /-- The formulas that a formula refers to are listed before it. -/
  reads : ∀ before p text after, listed = before ++ (p, text) :: after →
    ∀ q f, s.Feeds q p → s.formula? q = some f → (q, f.text) ∈ before

/-- What is less deep than a cell is dumped before it. -/
theorem mem_before_of_depth_lt (split : s.dump = before ++ (p, text) :: after)
    (hf : s.formula? q = some f) (less : s.depth q < s.depth p) : (q, f.text) ∈ before := by
  have listed : (q, f.text) ∈ s.dump := mem_dump.mpr (mem_formulas.mpr ⟨f, hf, rfl⟩)
  have sorted := s.pairwise_dump
  rw [split, List.mem_append, List.mem_cons] at listed
  rw [split] at sorted
  rcases listed with earlier | same | later
  · exact earlier
  · cases same
    exact absurd less (Nat.lt_irrefl _)
  · have lt := List.rel_of_pairwise_cons (List.pairwise_append.mp sorted).2.1 later
    exact absurd less (Nat.not_lt_of_le (depth_le_of_byDepth lt))

theorem depth_le_of_mem_before {a : Position × String} (split : s.dump = before ++ (p, text) :: after)
    (ha : a ∈ before) : s.depth a.1 ≤ s.depth p := by
  have sorted := s.pairwise_dump
  rw [split] at sorted
  exact depth_le_of_byDepth ((List.pairwise_append.mp sorted).2.2 a ha _ List.mem_cons_self)

theorem Settled.inOrder_dump (h : s.Settled) : s.InOrder s.dump where
  mem p text := mem_dump.trans mem_formulas
  once := by
    refine List.pairwise_map.mpr (s.pairwise_dump.imp fun {a b} lt same => ?_)
    rw [same] at lt
    exact Std.OrientedCmp.not_lt_of_lt lt lt
  sorted := by
    refine s.pairwise_dump.imp_of_mem fun {a b} ha hb lt => ?_
    have onGrid {c : Position × String} (hc : c ∈ s.dump) : c.1.OnGrid := by
      obtain ⟨f, hf, -⟩ := mem_formulas.mp (mem_dump.mp hc)
      exact h.onGrid c.1 (mem_of_formula? hf)
    rwa [byDepth_eq_lt_iff, Position.order_eq_lt_iff (onGrid ha) (onGrid hb)] at lt
  reads before p text after split q f feeds hf :=
    mem_before_of_depth_lt split hf (h.isDepth.lt feeds)

/-! ## Entering what a dump lists -/

/-- What comes of entering formulas one after the other, whether they are refused or not. -/
def results (s : Sheet) : List (String × String) → List (Except EntryError Updates)
  | [] => []
  | (cell, text) :: rest => (s.enter cell text).2 :: results (s.enter cell text).1 rest

namespace PartOf

/-- Entering a formula changes one value only, if no formula refers to its cell yet. It is the value
of the whole, if the formulas of all cells it depends on have been entered. -/
theorem enter_alone (hs : s.Settled) (h : s.PartOf t) (hf : s.formula? p = some f)
    (unread : ∀ q, ¬ t.Feeds p q) (known : ∀ q, TransGen s.Feeds q p → t.formula? q = s.formula? q) :
    (t.enter p.name f.text).2 = .ok ((∅ : Updates).insert p (s.value p)) := by
  have effect := h.settled.entered (hs.onGrid p (mem_of_formula? hf)) (hs.parsed p f hf)
    (clash?_eq_none hs h hf)
  obtain ⟨u, updates, entered, part, formula⟩ := enter hs h hf
  rw [enter_eq hs h hf] at entered
  cases entered
  have value : ((t.place p f).recompute p).1.value p = s.value p := by
    refine hs.value_eq part.settled part.operators fun q path => ?_
    rw [formula]
    split
    · next same => rw [← same, hf]
    · next other => exact known q ((reflTransGen_iff_eq_or_transGen.mp path).resolve_left other)
  have alone (q : Position) : ¬ TransGen ((t.place p f).recompute p).1.Feeds p q := by
    rw [effect.dependent, TransGen.head'_iff]
    exact fun ⟨x, step, _⟩ => unread x step
  rw [enter_eq hs h hf, Except.ok.injEq]
  refine Std.ExtTreeMap.ext_getElem? fun q => Option.ext fun v => ?_
  rw [effect.updated, or_iff_left (alone q), Std.ExtTreeMap.getElem?_insert]
  by_cases same : p = q
  · subst same
    simp [value]
  · simp [same, Ne.symm same]

/-- Entering the formulas of a dump after those that stand before them. -/
theorem results_eq (hs : s.Settled) (h : s.PartOf t) (split : s.dump = before ++ after)
    (known : ∀ q g, s.formula? q = some g → (t.formula? q = some g ↔ (q, g.text) ∈ before)) :
    t.results (after.map fun (p, text) => (p.name, text)) =
      after.map fun (p, _) => .ok ((∅ : Updates).insert p (s.value p)) := by
  induction after generalizing t before with
  | nil => rfl
  | cons a after ih =>
    obtain ⟨p, text⟩ := a
    have listed : (p, text) ∈ s.dump := split ▸ List.mem_append_right before List.mem_cons_self
    obtain ⟨f, hf, rfl⟩ := mem_formulas.mp (mem_dump.mp listed)
    have unread (q : Position) : ¬ t.Feeds p q := by
      intro feeds
      obtain ⟨g, hg, mem⟩ := feeds_iff.mp feeds
      have earlier := depth_le_of_mem_before split ((known q g (h.formulas q g hg)).mp hg)
      exact absurd (hs.isDepth.lt (h.feeds feeds)) (Nat.not_lt_of_le earlier)
    have entered (q : Position) (path : TransGen s.Feeds q p) : t.formula? q = s.formula? q := by
      cases hg : s.formula? q with
      | some g => exact (known q g hg).mpr (mem_before_of_depth_lt split hg (hs.isDepth.lt_of_path path))
      | none =>
        refine Option.eq_none_iff_forall_ne_some.mpr fun g bare => ?_
        rw [h.formulas q g bare] at hg
        cases hg
    obtain ⟨u, updates, step, part, formula⟩ := enter hs h hf
    have alone := enter_alone hs h hf unread entered
    rw [step] at alone
    rw [List.map_cons, List.map_cons, results, step, alone]
    refine congrArg _ (ih part (split.trans (List.append_cons before _ after)) fun q g hg => ?_)
    rw [formula, List.mem_append, List.mem_singleton, Prod.mk.injEq]
    split
    · next same =>
      subst same
      rw [hf] at hg
      cases hg
      simp
    · next other => simp [known q g hg, Ne.symm other]

end PartOf

/-- **Order of a dump.** After every history, whatever the orders in which the records are gone
through, no link is followed to a cell that waits for none, every record gets its depth, and the
dump is the same list of all formulas, by depth and then by name. Each formula stands after those
that it refers to; so entered one by one into a new sheet they each change one value, to what it is
in the end. -/
theorem dump_edits (name name' : String) (operators : Op → List Float → Float) (es : List Edit)
    (records seeds : List Position)
    (perm : records.Perm ((blank name operators).edits es).cells.keys)
    (permSeeds : seeds.Perm ((blank name operators).edits es).cells.keys) :
    let s := (blank name operators).edits es
    IsDepth s.Feeds s.depth ∧
      (∃ depths, s.links.descend records seeds = some depths ∧
        ∀ p : Position, depths[p]? = if p ∈ s.cells then some (s.depth p) else none) ∧
      s.dumpIn records seeds = some s.dump ∧ s.InOrder s.dump ∧
      (blank name' operators).results s.dumpPairs =
        s.dump.map fun (p, _) => .ok ((∅ : Updates).insert p (s.value p)) := by
  intro s
  have settled : s.Settled := settled_edits name operators es
  have start : s.PartOf (blank name' operators) := by
    have := partOf_blank s name'
    rwa [show s.operators = operators from operators_edits _ es] at this
  have none (q : Position) : (blank name' operators).formula? q = none := by
    rw [formula?, cell_blank]
    rfl
  refine ⟨settled.isDepth, settled.descend_eq perm permSeeds, settled.dumpIn_eq perm permSeeds,
    settled.inOrder_dump, start.results_eq settled (List.nil_append _).symm fun q g _ => ?_⟩
  simp [none]

/-- The records of three cells are gone through backwards. The last of them refers to the first both
at once and through the second. -/
theorem dump_backwards_c1 :
    let s := (blank "sheet" Op.apply).edits [.enter "b1" "-a$1 / 2", .enter "c1" "a1 * b1"]
    s.cells.keys.reverse.Perm s.cells.keys ∧
      s.depth ⟨0, 0⟩ = 0 ∧ s.depth ⟨1, 0⟩ = 1 ∧ s.depth ⟨2, 0⟩ = 2 ∧
      IsDepth s.Feeds s.depth ∧
      (∃ depths, s.links.descend s.cells.keys.reverse s.cells.keys.reverse = some depths ∧
        ∀ p : Position, depths[p]? = if p ∈ s.cells then some (s.depth p) else none) ∧
      s.dumpIn s.cells.keys.reverse s.cells.keys.reverse = some s.dump ∧ s.InOrder s.dump ∧
      (blank "copy" Op.apply).results s.dumpPairs =
        s.dump.map fun (p, _) => .ok ((∅ : Updates).insert p (s.value p)) := by
  intro s
  have perm := List.reverse_perm s.cells.keys
  have dump := dump_edits "sheet" "copy" Op.apply
    [.enter "b1" "-a$1 / 2", .enter "c1" "a1 * b1"] _ _ perm perm
  have isDepth : IsDepth s.Feeds s.depth := dump.1
  have a1 : s.depth ⟨0, 0⟩ = 0 := isDepth.top _ fun q feeds => by
    simpa using feeds_multiplied.mp feeds
  have b1 : s.depth ⟨1, 0⟩ = 1 := by
    obtain ⟨⟨q, feeds, deeper⟩, -⟩ := isDepth.under ⟨1, 0⟩ ⟨_, feeds_multiplied.mpr (.inl ⟨rfl, rfl⟩)⟩
    obtain rfl : q = ⟨0, 0⟩ := by simpa using feeds_multiplied.mp feeds
    rw [deeper, a1]
  have c1 : s.depth ⟨2, 0⟩ = 2 := by
    have deeper := isDepth.lt (feeds_multiplied.mpr (.inr ⟨.inr rfl, rfl⟩) : s.Feeds ⟨1, 0⟩ ⟨2, 0⟩)
    rw [b1] at deeper
    refine Nat.le_antisymm (isDepth.le fun q feeds => ?_) deeper
    obtain rfl | rfl : q = ⟨0, 0⟩ ∨ q = ⟨1, 0⟩ := by simpa using feeds_multiplied.mp feeds
    · rw [a1]; decide
    · rw [b1]; decide
  exact ⟨perm, a1, b1, c1, dump⟩

end Worksheet.Sheet
