import Mathlib.Data.List.Sort
import Worksheet.Proofs.Sheet.History
import Worksheet.Sheet.Dump

/-!
# What a dump depends on

The depth of a cell is found while the cells with records are gone through, each after those it
depends on, so it is one more than the depths of all cells that it refers to. In a settled sheet
this equation has one solution, and everything else that a sheet shows is fixed by its formulas as
well.

Results:
* `Settled.depth_eq`: the equation of depths.
* `Settled.value_eq`: the value of a cell is fixed by its formula and those it depends on.
* `Settled.cell_eq`: two settled sheets with the same formulas know the same of every cell.
* `Settled.dump_eq`: and they have the same dump.
-/
namespace Worksheet.Sheet

open Relation

variable {s t : Sheet} {p q : Position} {cells : List Position}

/-! ## Depths -/

/-- The depth of a cell; zero if it has no record. -/
def depth (s : Sheet) (p : Position) : Nat := s.depths.getD p 0

theorem getD_insert (depths : PositionMap Nat) (p q : Position) (d : Nat) :
    (depths.insert p d).getD q 0 = if p = q then d else depths.getD q 0 := by
  simp only [Std.ExtTreeMap.getD_insert, Std.LawfulEqCmp.compare_eq_iff_eq]

theorem depthFrom_congr {d d' : PositionMap Nat}
    (h : ∀ q, s.Feeds q p → d.getD q 0 = d'.getD q 0) : s.depthFrom d p = s.depthFrom d' p := by
  unfold depthFrom
  rw [List.map_congr_left fun q hq => by rw [h q hq]]

/-- After a row of cells is gone through, each after those that it refers to, all depths agree with
one another, if before it those outside the row do. -/
theorem getD_foldl_insert_depthFrom (acyclic : Acyclic s.Feeds)
    (sorted : cells.Pairwise fun a b => ¬ s.Feeds b a) (depths : PositionMap Nat)
    (apart : ∀ a ∉ cells, ∀ b ∈ cells, ¬ s.Feeds b a)
    (agree : ∀ a ∉ cells, depths.getD a 0 = s.depthFrom depths a) (p : Position) :
    (cells.foldl (fun d q => d.insert q (s.depthFrom d q)) depths).getD p 0 =
      s.depthFrom (cells.foldl (fun d q => d.insert q (s.depthFrom d q)) depths) p := by
  induction cells generalizing depths with
  | nil => exact agree p List.not_mem_nil
  | cons x cells ih =>
    obtain ⟨later, sorted⟩ := List.pairwise_cons.mp sorted
    -- The depth of `x` changes none of those that are found before it, nor its own.
    have keep {a : Position} (free : ¬ s.Feeds x a) :
        s.depthFrom (depths.insert x (s.depthFrom depths x)) a = s.depthFrom depths a := by
      refine depthFrom_congr fun q hq => ?_
      rw [getD_insert, if_neg]
      intro same
      subst same
      exact free hq
    have outside {a : Position} (other : a ≠ x) (ha : a ∉ cells) : a ∉ x :: cells :=
      fun mem => (List.mem_cons.mp mem).elim other ha
    rw [List.foldl_cons]
    refine ih sorted _ (fun a ha b hb => ?_) fun a ha => ?_
    · by_cases same : a = x
      · exact same ▸ later b hb
      · exact apart a (outside same ha) b (List.mem_cons_of_mem x hb)
    · by_cases same : a = x
      · rw [same, getD_insert, if_pos rfl, keep (acyclic.not_self x)]
      · have free := apart a (outside same ha) x List.mem_cons_self
        rw [getD_insert, if_neg (Ne.symm same), keep free, agree a (outside same ha)]

/-- The depth of a cell is one more than the depths of the cells it refers to. -/
theorem Settled.depth_eq (h : s.Settled) (p : Position) :
    s.depth p = ((s.references p).map fun q => s.depth q + 1).foldl max 0 := by
  have sorted := (Links.order_spec h.links_acyclic (.ofList s.cells.keys Position.order)).2
  have bare {a : Position} (ha : a ∉ s.links.order (.ofList s.cells.keys Position.order)) :
      s.formula? a = none := by
    rw [Links.mem_order_iff h.links_acyclic, Std.ExtTreeSet.mem_ofList, List.contains_iff_mem,
      Std.ExtTreeMap.mem_keys] at ha
    rw [formula?, cell_of_not_mem ha]
    rfl
  refine getD_foldl_insert_depthFrom h.acyclic
    (sorted.imp fun free feeds => free (h.mem_dependents_iff.mpr feeds)) ∅
    (fun a ha b _ feeds => feeds.formula?_ne_none (bare ha)) (fun a ha => ?_) p
  rw [Std.ExtTreeMap.getD_empty, depthFrom, references_eq_nil (bare ha)]
  rfl

/-! ## Sheets with the same formulas -/

theorem Settled.depth_congr (hs : s.Settled) (ht : t.Settled)
    (same : ∀ p, t.formula? p = s.formula? p) (p : Position) : t.depth p = s.depth p := by
  induction p using hs.acyclic.wellFounded.induction with
  | h p ih =>
    rw [ht.depth_eq, hs.depth_eq, references_congr (same p), List.map_congr_left]
    intro q hq
    rw [ih q hq]

/-- The value of a cell is fixed by its formula and those of the cells it depends on. -/
theorem Settled.value_eq (hs : s.Settled) (ht : t.Settled) (operators : t.operators = s.operators)
    (same : ∀ q, ReflTransGen s.Feeds q p → t.formula? q = s.formula? q) : t.value p = s.value p := by
  induction p using hs.acyclic.wellFounded.induction with
  | h p ih =>
    rw [ht.current p List.not_mem_nil, hs.current p List.not_mem_nil]
    exact computed_congr (same p .refl) operators fun q feeds =>
      ih q feeds fun r path => same r (path.tail feeds)

/-- **Formulas fix a sheet.** Two settled sheets with the same formulas know the same of every
cell. -/
theorem Settled.cell_eq (hs : s.Settled) (ht : t.Settled) (operators : t.operators = s.operators)
    (same : ∀ p, t.formula? p = s.formula? p) (p : Position) : t.cell p = s.cell p := by
  have value : t.value p = s.value p := hs.value_eq ht operators fun q _ => same q
  have dependents : (t.cell p).dependents = (s.cell p).dependents := by
    refine Std.ExtTreeSet.ext_mem fun q => ?_
    rw [← mem_dependents, ← mem_dependents, ht.mem_dependents_iff, hs.mem_dependents_iff, Feeds,
      Feeds, references_congr (same q)]
  calc t.cell p = ⟨t.value p, t.formula? p, (t.cell p).dependents⟩ := rfl
    _ = ⟨s.value p, s.formula? p, (s.cell p).dependents⟩ := by rw [value, same, dependents]
    _ = s.cell p := rfl

/-! ## Dumps -/

theorem mem_formulas {text : String} :
    (p, text) ∈ s.formulas ↔ ∃ f, s.formula? p = some f ∧ f.text = text := by
  simp only [formulas, List.mem_filterMap, Prod.exists, Std.ExtTreeMap.mem_toList_iff_getElem?_eq_some,
    Option.map_eq_some_iff, Prod.mk.injEq]
  constructor
  · intro holds
    obtain ⟨_, c, hc, f, hf, rfl, rfl⟩ := holds
    exact ⟨f, by rw [formula?, cell, hc]; exact hf, rfl⟩
  · intro holds
    obtain ⟨f, hf, rfl⟩ := holds
    obtain ⟨c, hc⟩ := Option.isSome_iff_exists.mp
      (Std.ExtTreeMap.mem_iff_isSome_getElem?.mp (mem_of_formula? hf))
    refine ⟨p, c, hc, f, ?_, rfl, rfl⟩
    rw [formula?, cell, hc] at hf
    exact hf

theorem sorted_formulas (s : Sheet) :
    s.formulas.Pairwise fun a b => Position.order a.1 b.1 = .lt := by
  refine List.Pairwise.filterMap _ (fun a b lt c hc d hd => ?_) Std.ExtTreeMap.ordered_keys_toList
  obtain ⟨f, -, rfl⟩ := Option.map_eq_some_iff.mp hc
  obtain ⟨g, -, rfl⟩ := Option.map_eq_some_iff.mp hd
  exact lt

theorem mem_dump {a : Position × String} : a ∈ s.dump ↔ a ∈ s.formulas :=
  (List.mergeSort_perm _ _).mem_iff

theorem formulas_congr (same : ∀ p, t.formula? p = s.formula? p) : t.formulas = s.formulas := by
  have : Std.Antisymm fun a b : Position × String => Position.order a.1 b.1 = .lt :=
    ⟨fun _ _ lt gt => absurd gt (Std.OrientedCmp.not_lt_of_lt lt)⟩
  have : Std.Irrefl fun a b : Position × String => Position.order a.1 b.1 = .lt :=
    ⟨fun _ lt => Std.OrientedCmp.not_lt_of_lt lt lt⟩
  refine t.sorted_formulas.eq_of_mem_iff s.sorted_formulas fun ⟨p, text⟩ => ?_
  rw [mem_formulas, mem_formulas, same]

theorem Settled.dump_eq (hs : s.Settled) (ht : t.Settled)
    (same : ∀ p, t.formula? p = s.formula? p) : t.dump = s.dump := by
  have depth (p : Position) : t.depths.getD p 0 = s.depths.getD p 0 := hs.depth_congr ht same p
  simp only [dump, depth, formulas_congr same]

theorem dumpPairs_eq_singleton {f : Formula}
    (only : ∀ q, s.formula? q = if p = q then some f else none) : s.dumpPairs = [(p.name, f.text)] := by
  have nodup : s.formulas.Nodup := by
    refine List.Pairwise.imp (fun {a b} lt same => ?_) s.sorted_formulas
    rw [same] at lt
    exact Std.OrientedCmp.not_lt_of_lt lt lt
  have formulas : s.formulas = [(p, f.text)] := by
    refine List.perm_singleton.mp ((List.perm_ext_iff_of_nodup nodup (List.nodup_singleton _)).mpr ?_)
    rintro ⟨q, text⟩
    rw [mem_formulas, only, List.mem_singleton, Prod.mk.injEq]
    by_cases same : p = q
    · subst same
      simp [eq_comm]
    · simp [same, Ne.symm same]
  rw [dumpPairs, dump, formulas]
  simp only [List.mergeSort_singleton, List.map_cons, List.map_nil]

end Worksheet.Sheet
