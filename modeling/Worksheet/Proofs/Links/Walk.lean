import Mathlib.Logic.Relation
import Mathlib.Data.Finite.Prod
import Worksheet.Sheet.Links

/-!
# Paths between cells and what a walk visits

Relations between cells are followed near and far. A relation without a cycle can be followed back
only finitely often, because there are finitely many positions, so it carries induction.

A walk keeps the cells it has seen and a list of pending ones. Two facts about any such state carry
the proofs: what is visited can be reached from a pending cell, and if the links of the seen cells
are seen or pending, then what is seen or visited in the end is closed under links.

Results:
* `Acyclic.wellFounded`: a relation without a cycle is well-founded.
* `Acyclic.redirect`, `Acyclic.redirect_iff`: what leads into one cell may be exchanged for cells it
  does not lead to, and for no others.
* `mem_walk_iff`: a walk visits exactly the cells that links lead to.
-/
namespace Worksheet

open Relation

/-! ## Relations without a cycle -/

/-- Nothing leads from a cell back to it. -/
def Acyclic (r : Position → Position → Prop) : Prop := ∀ p, ¬ TransGen r p p

instance : Finite Position :=
  Finite.of_injective (fun p => (p.col.toFin, p.row.toFin)) fun p q h => by
    simp only [Prod.mk.injEq, UInt64.toFin_inj] at h
    cases p; cases q; simp_all

namespace Acyclic

variable {r r' : Position → Position → Prop} {p : Position}

theorem not_self (h : Acyclic r) (p : Position) : ¬ r p p := fun step => h p (.single step)

theorem mono (h : Acyclic r) (sub : ∀ p q, r' p q → r p q) : Acyclic r' :=
  fun p cycle => h p (TransGen.mono sub _ _ cycle)

/-- What leads to a cell near or far leads on to no cell that leads to it. -/
theorem not_reaches_back {q : Position} (h : Acyclic r) (step : r p q) : ¬ ReflTransGen r q p :=
  fun back => h p (TransGen.head' step back)

theorem transGen_iff {q : Position} (h : Acyclic r) :
    TransGen r p q ↔ q ≠ p ∧ ReflTransGen r p q := by
  rw [reflTransGen_iff_eq_or_transGen]
  constructor
  · exact fun path => ⟨fun same => h p (same ▸ path), .inr path⟩
  · exact fun holds => holds.2.resolve_left holds.1

theorem wellFounded (h : Acyclic r) : WellFounded r := by
  have : IsTrans Position (TransGen r) := ⟨fun _ _ _ => TransGen.trans⟩
  have : Std.Irrefl (TransGen r) := ⟨h⟩
  exact Subrelation.wf (fun step => TransGen.single step)
    (Finite.wellFounded_of_trans_of_irrefl (TransGen r))

/-- A path that starts at `p` gains nothing from new ways into `p`. -/
theorem reaches_of_redirect {q : Position} (same : ∀ a b, b ≠ p → r' a b → r a b)
    (h : ReflTransGen r' p q) : ReflTransGen r p q := by
  induction h with
  | refl => exact .refl
  | @tail a b _ step ih =>
    by_cases hb : b = p
    · exact hb ▸ .refl
    · exact ih.tail (same a b hb step)

/-- **Redirection.** The cells that lead to `p` may be exchanged for cells that `p` does not lead
to: a new cycle would pass through `p`, and so `p` would lead to one of them. -/
theorem redirect (h : Acyclic r) (same : ∀ a b, b ≠ p → r' a b → r a b)
    (fresh : ∀ a, r' a p → ¬ ReflTransGen r p a) : Acyclic r' := by
  have atp : ¬ TransGen r' p p := by
    intro cycle
    obtain ⟨a, path, step⟩ := TransGen.tail'_iff.mp cycle
    exact fresh a step (reaches_of_redirect same path)
  intro q cycle
  have passes : ∀ {a b}, TransGen r' a b →
      (ReflTransGen r' a p ∧ ReflTransGen r' p b) ∨ TransGen r a b := by
    intro a b path
    induction path with
    | @single b step =>
      by_cases hb : b = p
      · exact .inl ⟨hb ▸ .single step, hb ▸ .refl⟩
      · exact .inr (.single (same a b hb step))
    | @tail b c path step ih =>
      by_cases hc : c = p
      · exact .inl ⟨hc ▸ (path.tail step).to_reflTransGen, hc ▸ .refl⟩
      · rcases ih with ⟨into, out⟩ | old
        · exact .inl ⟨into, out.tail step⟩
        · exact .inr (old.tail (same b c hc step))
  rcases passes cycle with ⟨into, out⟩ | old
  · exact atp (TransGen.trans_left (TransGen.trans_right out cycle) into)
  · exact h q old

/-- If two relations lead to all cells but `p` in the same way, and the first has no cycle, then the
second has one if and only if something that leads to `p` in it is led to from `p` in the first. -/
theorem redirect_iff (h : Acyclic r) (same : ∀ a b, b ≠ p → (r' a b ↔ r a b)) :
    Acyclic r' ↔ ∀ a, r' a p → ¬ ReflTransGen r p a := by
  constructor
  · intro h' a step path
    exact h'.not_reaches_back step (reaches_of_redirect (fun a b hb => (same a b hb).mpr) path)
  · exact h.redirect fun a b hb => (same a b hb).mp

end Acyclic

/-! ## Links -/

namespace Links

variable {l : Links} {p q : Position}

/-- A link leads from `p` to `q`: the cell `q` depends on `p` directly. -/
def Leads (l : Links) (p q : Position) : Prop := q ∈ l.next p

/-- Links lead from `p` to `q`, near or far, or the two are one cell. -/
def Reaches (l : Links) : Position → Position → Prop := ReflTransGen l.Leads

theorem mem_insert_iff {seen : PositionSet} : q ∈ seen.insert p ↔ q = p ∨ q ∈ seen := by
  rw [Std.ExtTreeSet.mem_insert, Std.LawfulEqCmp.compare_eq_iff_eq, eq_comm]

theorem exists_reaches_of_mem_walkFrom {seen : PositionSet} {pending : List Position}
    (h : q ∈ l.walkFrom seen pending) : ∃ p ∈ pending, l.Reaches p q := by
  fun_induction walkFrom l seen pending with
  | case1 => cases h
  | case2 seen p pending _ ih =>
    obtain ⟨r, hr, reach⟩ := ih h
    exact ⟨r, List.mem_cons_of_mem p hr, reach⟩
  | case3 seen p pending _ ih =>
    simp only [List.unattach_reverse, List.unattach_attach] at ih
    rcases List.mem_cons.mp h with rfl | h
    · exact ⟨q, List.mem_cons_self, ReflTransGen.refl⟩
    · obtain ⟨r, hr, reach⟩ := ih h
      rcases List.mem_append.mp hr with hr | hr
      · exact ⟨p, List.mem_cons_self, ReflTransGen.head (List.mem_reverse.mp hr) reach⟩
      · exact ⟨r, List.mem_cons_of_mem p hr, reach⟩

/-- If the links of the seen cells are seen or pending, then the pending cells are seen or visited,
and so are the links of all these cells. -/
theorem walkFrom_closed {seen : PositionSet} {pending : List Position}
    (h : ∀ p ∈ seen, ∀ q, l.Leads p q → q ∈ seen ∨ q ∈ pending) :
    (∀ p ∈ pending, p ∈ seen ∨ p ∈ l.walkFrom seen pending) ∧
      ∀ p, p ∈ seen ∨ p ∈ l.walkFrom seen pending → ∀ q, l.Leads p q →
        q ∈ seen ∨ q ∈ l.walkFrom seen pending := by
  fun_induction walkFrom l seen pending with
  | case1 => simpa using h
  | case2 seen p pending hp ih =>
    obtain ⟨pendingSeen, closed⟩ := ih fun r hr q hq => by
      rcases h r hr q hq with hq | hq
      · exact .inl hq
      · rcases List.mem_cons.mp hq with rfl | hq
        · exact .inl hp
        · exact .inr hq
    refine ⟨fun r hr => ?_, closed⟩
    rcases List.mem_cons.mp hr with rfl | hr
    · exact .inl hp
    · exact pendingSeen r hr
  | case3 seen p pending _ ih =>
    simp only [List.unattach_reverse, List.unattach_attach] at ih
    obtain ⟨pendingSeen, closed⟩ := ih fun r hr q hq => by
      rcases mem_insert_iff.mp hr with rfl | hr
      · exact .inr (List.mem_append_left _ (List.mem_reverse.mpr hq))
      · rcases h r hr q hq with hq | hq
        · exact .inl (mem_insert_iff.mpr (.inr hq))
        · rcases List.mem_cons.mp hq with rfl | hq
          · exact .inl (mem_insert_iff.mpr (.inl rfl))
          · exact .inr (List.mem_append_right _ hq)
    simp only [mem_insert_iff, List.mem_cons, List.mem_append, or_assoc] at pendingSeen closed ⊢
    refine ⟨fun r hr => ?_, fun r hr q hq => ?_⟩
    · rcases hr with rfl | hr
      · exact .inr (.inl rfl)
      · rcases pendingSeen r (.inr hr) with rfl | hs | hw
        · exact .inr (.inl rfl)
        · exact .inl hs
        · exact .inr (.inr hw)
    · have seenOrVisited := closed r (or_left_comm.mp hr) q hq
      exact or_left_comm.mp seenOrVisited

/-- A walk visits exactly the cells that links lead to from its start. -/
theorem mem_walk_iff : q ∈ l.walk p ↔ l.Reaches p q := by
  constructor
  · intro h
    obtain ⟨r, hr, reach⟩ := exists_reaches_of_mem_walkFrom h
    rw [List.mem_singleton] at hr
    exact hr ▸ reach
  · intro h
    have unseen : ∀ r ∈ (∅ : PositionSet), ∀ q, l.Leads r q → q ∈ (∅ : PositionSet) ∨ q ∈ [p] :=
      fun r hr => absurd hr Std.ExtTreeSet.not_mem_empty
    obtain ⟨start, closed⟩ := walkFrom_closed unseen
    simp only [Std.ExtTreeSet.not_mem_empty, false_or, List.mem_singleton, forall_eq] at start closed
    induction h with
    | refl => exact start
    | tail _ step ih => exact closed _ ih _ step

theorem Reaches.mono {m : Links} (sub : ∀ p q, m.Leads p q → l.Leads p q)
    (h : m.Reaches p q) : l.Reaches p q :=
  ReflTransGen.mono sub _ _ h

end Links

end Worksheet
