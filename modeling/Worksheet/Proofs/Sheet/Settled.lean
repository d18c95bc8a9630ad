import Worksheet.Proofs.Formula.Parsed
import Worksheet.Proofs.Links.Order
import Worksheet.Proofs.Sheet.Records

/-!
# Settled sheets

In a settled sheet every formula is the one its text is read as, the links are exactly the
references of the formulas, no cell depends on itself, and every value is what the cell's formula
comes to. A removal passes through sheets that are settled but for some pending cells: these may
lack links from cells without a formula, and their values may be old.

Entering a formula settles its cell. The cascade from the cell follows the links, it lists every
cell after those it refers to, and it leaves out no cell that refers to a listed one; so each
evaluation in turn reads values that are final.

Results:
* `evaluateEach_current`: a closed row of cells, each after those it refers to, ends with the values
  that the formulas come to.
* `SettledBut.place_recompute`: a formula that closes no cycle settles its cell.
* `Settled.enterAt`, `Settled.removeAt`: entries and removals keep a sheet settled, and a removal
  never fails.
-/
namespace Worksheet

open Relation

/-- The text of a formula has no blanks and is read as its tree. -/
def Formula.Parsed (f : Formula) (p : Position) : Prop :=
  Expr.parse p f.text = .ok f.tree ∧ Text.strip f.text = f.text

theorem Formula.Parsed.strip {p : Position} {text : String} {tree : Expr}
    (h : Expr.parse p text = .ok tree) : Formula.Parsed ⟨Text.strip text, tree⟩ p :=
  ⟨Expr.parse_strip h, Text.strip_strip text⟩

namespace Sheet

variable {s : Sheet} {p q : Position} {pending rest cells : List Position}

theorem Feeds.onGrid (h : s.Feeds p q) : p.OnGrid := by
  obtain ⟨f, hf⟩ := Option.ne_none_iff_exists'.mp h.formula?_ne_none
  rw [Feeds, references_eq hf] at h
  exact Expr.onGrid_of_mem_references h

/-! ## Rows of evaluations -/

theorem computed_evaluate (free : ¬ s.Feeds p q) :
    (s.evaluate p).1.computed q = s.computed q := by
  refine computed_congr formula?_evaluate operators_evaluate fun r hr => ?_
  rw [value_evaluate, if_neg]
  intro same
  subst same
  exact free hr

/-- After a closed row of cells is evaluated, each after those of the row that it refers to, the
cells of the row have the values their formulas come to, and so do the cells that had them before.
-/
theorem evaluateEach_current (acyclic : Acyclic s.Feeds) (nodup : cells.Nodup)
    (ordered : ∀ before q after, cells = before ++ q :: after →
      ∀ a ∈ cells, s.Feeds a q → a ∈ before)
    (closed : ∀ a ∈ cells, ∀ q, s.Feeds a q → q ∈ cells)
    (h : q ∈ cells ∨ s.value q = s.computed q) :
    (s.evaluateEach cells).1.value q = (s.evaluateEach cells).1.computed q := by
  -- The induction is on the cells `after` that are still to come in a sheet `t` with the same
  -- formulas; the cells before them have their final values in it.
  suffices run : ∀ (after before : List Position) (t : Sheet), cells = before ++ after →
      (∀ q, t.formula? q = s.formula? q) →
      (∀ q, q ∈ before ∨ (q ∉ cells ∧ s.value q = s.computed q) → t.value q = t.computed q) →
      (t.evaluateEach after).1.value q = (t.evaluateEach after).1.computed q by
    refine run cells [] s rfl (fun _ => rfl) fun q hq => ?_
    rcases hq with hq | hq
    · cases hq
    · exact hq.2
  intro after
  induction after with
  | nil =>
    intro before t split same done
    rw [List.append_nil] at split
    subst split
    refine done q ?_
    by_cases hq : q ∈ cells
    · exact .inl hq
    · exact .inr ⟨hq, h.resolve_left hq⟩
  | cons x after ih =>
    intro before t split same done
    have feeds {a b : Position} : t.Feeds a b ↔ s.Feeds a b := by
      rw [Feeds, references_congr (same b), Feeds]
    have hx : x ∈ cells := split ▸ List.mem_append_right before List.mem_cons_self
    have keep (q : Position) (free : ¬ s.Feeds x q) :
        (t.evaluate x).1.computed q = t.computed q := computed_evaluate (mt feeds.mp free)
    rw [evaluateEach_cons]
    refine ih (before ++ [x]) _ (by rw [split, List.append_assoc]; rfl)
      (fun q => formula?_evaluate.trans (same q)) fun q hq => ?_
    rw [value_evaluate]
    by_cases this : x = q
    · subst this
      rw [if_pos rfl, keep x (acyclic.not_self x)]
    · rw [if_neg this]
      have earlier : q ∈ before ∨ (q ∉ cells ∧ s.value q = s.computed q) := by
        rcases hq with hq | hq
        · rcases List.mem_append.mp hq with hq | hq
          · exact .inl hq
          · exact absurd (List.mem_singleton.mp hq).symm this
        · exact .inr hq
      rw [keep q, done q earlier]
      intro hxq
      rcases earlier with hq | hq
      · obtain ⟨b, c, rfl⟩ := List.append_of_mem hq
        have early := ordered b q (c ++ x :: after) (by simp [split]) x hx hxq
        have clash := (List.nodup_append.mp (split ▸ nodup)).2.2
        exact clash x (List.mem_append_left _ early) x List.mem_cons_self rfl
      · exact hq.1 (closed x hx q hxq)

/-! ## Settled sheets -/

/-- A sheet is settled but for some pending cells. -/
structure SettledBut (s : Sheet) (pending : List Position) : Prop where
  onGrid : ∀ p ∈ s.cells, p.OnGrid
  parsed : ∀ p f, s.formula? p = some f → f.Parsed p
  sound : ∀ p q, q ∈ s.dependents p → s.Feeds p q
  complete : ∀ p q, s.Feeds p q → q ∈ s.dependents p ∨ (q ∈ pending ∧ s.formula? p = none)
  acyclic : Acyclic s.Feeds
  current : ∀ p, p ∉ pending → s.value p = s.computed p

/-- Nothing is pending. -/
abbrev Settled (s : Sheet) : Prop := s.SettledBut []

theorem Settled.mem_dependents_iff (h : s.Settled) : q ∈ s.dependents p ↔ s.Feeds p q := by
  refine ⟨h.sound p q, fun feeds => ?_⟩
  rcases h.complete p q feeds with hq | ⟨hq, -⟩
  · exact hq
  · cases hq

theorem SettledBut.links_acyclic (h : s.SettledBut pending) : Acyclic s.links.Leads :=
  h.acyclic.mono h.sound

theorem SettledBut.feeds_of_reaches (h : s.SettledBut pending) (reach : s.links.Reaches p q) :
    ReflTransGen s.Feeds p q :=
  ReflTransGen.mono h.sound _ _ reach

/-! ## Entering -/

/-- A sheet is settled but for some pending cells and the cell `p`, whose formula is new: it may
lack all links, and it has not been evaluated. -/
structure Placed (s : Sheet) (p : Position) (pending : List Position) : Prop where
  onGrid : ∀ p ∈ s.cells, p.OnGrid
  parsed : ∀ p f, s.formula? p = some f → f.Parsed p
  entered : s.formula? p ≠ none
  sound : ∀ a q, q ∈ s.dependents a → s.Feeds a q
  complete : ∀ a q, s.Feeds a q →
    q ∈ s.dependents a ∨ q = p ∨ (q ∈ pending ∧ s.formula? a = none)
  acyclic : Acyclic s.Feeds
  current : ∀ q, q ≠ p → q ∉ pending → s.value q = s.computed q

namespace Placed

theorem links_acyclic (h : s.Placed p pending) : Acyclic s.links.Leads := h.acyclic.mono h.sound

theorem formula?_of_reaches (h : s.Placed p pending) (reach : s.links.Reaches p q) :
    s.formula? q ≠ none := by
  rcases reach.cases_tail with rfl | ⟨a, -, step⟩
  · exact h.entered
  · exact (h.sound a q step).formula?_ne_none

/-- Among the cells that depend on `p` no link is missing. -/
theorem leads_of_feeds {a : Position} (h : s.Placed p pending) (reach : s.links.Reaches p a)
    (feeds : s.Feeds a q) : s.links.Leads a q := by
  rcases h.complete a q feeds with linked | rfl | ⟨-, bare⟩
  · exact linked
  · exact absurd (ReflTransGen.mono h.sound _ _ reach) (h.acyclic.not_reaches_back feeds)
  · exact absurd bare (h.formula?_of_reaches reach)

/-- The cascade leaves every cell but the pending ones with the value that its formula comes to. -/
theorem current_recompute (h : s.Placed p pending) (remaining : ∀ q ∈ pending, q = p ∨ q ∈ rest)
    (hq : q ∉ rest) : (s.recompute p).1.value q = (s.recompute p).1.computed q := by
  have listed {a : Position} : a ∈ s.links.cascade p ↔ s.links.Reaches p a :=
    Links.mem_cascade_iff h.links_acyclic
  refine evaluateEach_current h.acyclic (Links.nodup_order h.links_acyclic _)
    (fun before a after split b hb feeds => ?_) (fun a ha b feeds => ?_) ?_
  · exact Links.leads_before_cascade h.links_acyclic split hb
      (h.leads_of_feeds (listed.mp hb) feeds)
  · have reach := listed.mp ha
    exact listed.mpr (reach.tail (h.leads_of_feeds reach feeds))
  · by_cases reach : s.links.Reaches p q
    · exact .inl (listed.mpr reach)
    · have other : q ≠ p := fun same => reach (same ▸ ReflTransGen.refl)
      refine .inr (h.current q other fun waits => ?_)
      exact (remaining q waits).elim other hq

/-- The cascade links the new formula and settles its cell. -/
theorem recompute (h : s.Placed p pending) (remaining : ∀ q ∈ pending, q = p ∨ q ∈ rest) :
    (s.recompute p).1.SettledBut rest where
  onGrid q hq := by
    rcases mem_evaluateEach.mp hq with hq | ⟨a, -, feeds⟩
    · exact h.onGrid q hq
    · exact feeds.onGrid
  parsed q f hf := h.parsed q f (formula?_evaluateEach.symm.trans hf)
  sound a q hq := by
    rw [Sheet.recompute, feeds_evaluateEach]
    rcases mem_dependents_evaluateEach.mp hq with hq | ⟨-, feeds⟩
    · exact h.sound a q hq
    · exact feeds
  complete a q feeds := by
    rw [Sheet.recompute, feeds_evaluateEach] at feeds
    rw [Sheet.recompute, formula?_evaluateEach, mem_dependents_evaluateEach]
    have start : p ∈ s.links.cascade p := (Links.mem_cascade_iff h.links_acyclic).mpr .refl
    rcases h.complete a q feeds with linked | rfl | ⟨waits, bare⟩
    · exact .inl (.inl linked)
    · exact .inl (.inr ⟨start, feeds⟩)
    · rcases remaining q waits with rfl | waits
      · exact .inl (.inr ⟨start, feeds⟩)
      · exact .inr ⟨waits, bare⟩
  acyclic := h.acyclic.mono fun a q feeds => feeds_evaluateEach.mp feeds
  current q hq := h.current_recompute remaining hq

end Placed

/-- A formula that closes no cycle may be placed. -/
theorem SettledBut.place {f : Formula} (h : s.SettledBut pending) (onGrid : p.OnGrid)
    (parsed : f.Parsed p) (acyclic : Acyclic (s.place p f).Feeds)
    (known : pending ≠ [] → s.formula? p ≠ none) : (s.place p f).Placed p pending := by
  have old {a q : Position} (hq : q ≠ p) : (s.place p f).Feeds a q ↔ s.Feeds a q := by
    rw [feeds_place, if_neg (Ne.symm hq)]
  refine ⟨fun q hq => ?_, fun q g hg => ?_, ?_, fun a q hq => ?_, fun a q feeds => ?_, acyclic,
    fun q hq waits => ?_⟩
  · rcases mem_place.mp hq with rfl | hq
    · exact onGrid
    · exact h.onGrid q hq
  · rw [formula?_place] at hg
    split at hg
    · next same => cases hg; exact same ▸ parsed
    · exact h.parsed q g hg
  · rw [formula?_place, if_pos rfl]; exact Option.some_ne_none f
  · obtain ⟨hq, kept⟩ := mem_dependents_place.mp hq
    have feeds := h.sound a q hq
    exact (old fun same => kept ⟨same, same ▸ feeds⟩).mpr feeds
  · by_cases hq : q = p
    · exact .inr (.inl hq)
    · rcases h.complete a q ((old hq).mp feeds) with linked | ⟨waits, bare⟩
      · exact .inl (mem_dependents_place.mpr ⟨linked, fun same => hq same.1⟩)
      · have other : p ≠ a := fun same => known (List.ne_nil_of_mem waits) (same ▸ bare)
        exact .inr (.inr ⟨waits, by rw [formula?_place, if_neg other, bare]⟩)
  · rw [value_place, h.current q waits]
    refine (computed_congr ?_ operators_place fun a _ => value_place).symm
    rw [formula?_place, if_neg (Ne.symm hq)]

/-- A formula that refers to no cell that the links lead to closes no cycle. -/
theorem Settled.acyclic_place (h : s.Settled) {f : Formula}
    (free : ∀ q ∈ f.tree.references p, ¬ s.links.Reaches p q) : Acyclic (s.place p f).Feeds := by
  refine h.acyclic.redirect (p := p) (fun a b hb step => ?_) fun a step reach => ?_
  · rwa [feeds_place, if_neg (Ne.symm hb)] at step
  · rw [feeds_place, if_pos rfl] at step
    exact free a step (ReflTransGen.mono (fun a b => h.mem_dependents_iff.mpr) _ _ reach)

theorem clash?_eq_none_iff {tree : Expr} :
    s.clash? p tree = none ↔ ∀ q ∈ tree.references p, ¬ s.links.Reaches p q := by
  simp only [clash?, List.find?_eq_none, Links.mem_walk_iff, decide_eq_true_eq]
  exact ⟨fun h q mem reach => h q reach mem, fun h q reach mem => h q mem reach⟩

/-- A formula that is well-formed and clashes with no cell is placed, and its cell recomputed. -/
theorem enterAt_eq {text : String} {tree : Expr} (parsed : Expr.parse p text = .ok tree)
    (free : s.clash? p tree = none) :
    s.enterAt p text = (((s.place p ⟨Text.strip text, tree⟩).recompute p).1,
      .ok ((s.place p ⟨Text.strip text, tree⟩).recompute p).2) := by
  simp only [enterAt, parsed, free]

/-- What an entry does: nothing if it fails; else it places the formula and recomputes the cell. -/
theorem enterAt_cases (s : Sheet) (p : Position) (text : String) :
    (∃ e, s.enterAt p text = (s, .error e)) ∨
      ∃ tree, Expr.parse p text = .ok tree ∧ s.clash? p tree = none ∧
        s.enterAt p text = (((s.place p ⟨Text.strip text, tree⟩).recompute p).1,
          .ok ((s.place p ⟨Text.strip text, tree⟩).recompute p).2) := by
  cases parsed : Expr.parse p text with
  | error e => exact .inl ⟨.badFormula e, by simp only [enterAt, parsed]⟩
  | ok tree =>
    cases free : s.clash? p tree with
    | some via => exact .inl ⟨.circular p via, by simp only [enterAt, parsed, free]⟩
    | none => exact .inr ⟨tree, rfl, free, enterAt_eq parsed free⟩

theorem Settled.placed {f : Formula} (h : s.Settled) (onGrid : p.OnGrid) (parsed : f.Parsed p)
    (free : s.clash? p f.tree = none) : (s.place p f).Placed p [] :=
  h.place onGrid parsed (h.acyclic_place (clash?_eq_none_iff.mp free)) (absurd rfl)

/-- When nothing else is pending, the cascade settles the sheet. -/
theorem Placed.settled (h : s.Placed p []) : (s.recompute p).1.Settled :=
  h.recompute fun _ hq => absurd hq List.not_mem_nil

theorem Settled.enterAt (h : s.Settled) (onGrid : p.OnGrid) (text : String) :
    (s.enterAt p text).1.Settled := by
  rcases enterAt_cases s p text with ⟨e, failed⟩ | ⟨tree, parsed, free, entered⟩
  · rw [failed]; exact h
  · rw [entered]
    exact (h.placed onGrid (.strip parsed) free).settled

/-! ## Removal -/

theorem formula?_place_again {f : Formula} (hf : s.formula? p = some f) (q : Position) :
    (s.place p f).formula? q = s.formula? q := by
  rw [formula?_place]
  split
  · next same => rw [← same, hf]
  · rfl

theorem feeds_place_again {f : Formula} (hf : s.formula? p = some f) {a b : Position} :
    (s.place p f).Feeds a b ↔ s.Feeds a b := by
  rw [Feeds, references_congr (formula?_place_again hf b), Feeds]

/-- The formula of a pending cell may be placed again. -/
theorem SettledBut.place_again {f : Formula} (h : s.SettledBut (p :: rest))
    (hf : s.formula? p = some f) : (s.place p f).Placed p (p :: rest) := by
  have acyclic : Acyclic (s.place p f).Feeds :=
    h.acyclic.mono fun a b => (feeds_place_again hf).mp
  exact h.place (h.onGrid p (mem_of_formula? hf)) (h.parsed p f hf) acyclic fun _ => by
    rw [hf]; exact Option.some_ne_none f

/-- The formula that a cell has clashes with nothing, though its links have been made. -/
theorem SettledBut.clash?_eq_none {f : Formula} (h : s.SettledBut pending)
    (hf : s.formula? p = some f) : s.clash? p f.tree = none :=
  clash?_eq_none_iff.mpr fun q hq reach => by
    have feeds : s.Feeds q p := by rwa [Feeds, references_eq hf]
    exact h.acyclic.not_reaches_back feeds (h.feeds_of_reaches reach)

/-- Entering the formula of a pending cell again never fails, and it settles the cell. -/
theorem SettledBut.enterAt_again {f : Formula} (h : s.SettledBut (p :: rest))
    (hf : s.formula? p = some f) :
    s.enterAt p f.text = (((s.place p f).recompute p).1, .ok ((s.place p f).recompute p).2) ∧
      ((s.place p f).recompute p).1.SettledBut rest := by
  obtain ⟨parsed, stripped⟩ := h.parsed p f hf
  exact ⟨by rw [enterAt_eq parsed (h.clash?_eq_none hf), stripped],
    (h.place_again hf).recompute fun q hq => List.mem_cons.mp hq⟩

/-- Entering all pending formulas again never fails, and it settles the sheet. -/
theorem SettledBut.reenter (h : s.SettledBut pending)
    (known : ∀ q ∈ pending, s.formula? q ≠ none) (updates : Updates) :
    (∃ more, (s.reenter updates pending).2 = .ok more) ∧
      (s.reenter updates pending).1.Settled ∧
      ∀ q, (s.reenter updates pending).1.formula? q = s.formula? q := by
  induction pending generalizing s updates with
  | nil => exact ⟨⟨updates, rfl⟩, h, fun _ => rfl⟩
  | cons p rest ih =>
    obtain ⟨f, hf⟩ := Option.ne_none_iff_exists'.mp (known p List.mem_cons_self)
    obtain ⟨entered, settled⟩ := h.enterAt_again hf
    have same (q : Position) : ((s.place p f).recompute p).1.formula? q = s.formula? q :=
      formula?_evaluateEach.trans (formula?_place_again hf q)
    rw [Sheet.reenter, hf]
    simp only [entered]
    obtain ⟨ok, settled, kept⟩ :=
      ih settled (fun q hq => by rw [same]; exact known q (List.mem_cons_of_mem p hq)) _
    exact ⟨ok, settled, fun q => (kept q).trans (same q)⟩

theorem feeds_dropped {a q : Position} : (s.dropped p).Feeds a q ↔ q ≠ p ∧ s.Feeds a q := by
  by_cases same : p = q
  · subst same
    simp [Feeds, references_eq_nil (formula?_dropped.trans (if_pos rfl))]
  · rw [Feeds, references_congr (formula?_dropped.trans (if_neg same))]
    exact ⟨fun h => ⟨Ne.symm same, h⟩, And.right⟩

/-- Without the record of a cell a settled sheet is settled but for the cells that depended on it.
-/
theorem Settled.dropped (h : s.Settled) (p : Position) :
    (s.dropped p).SettledBut ((s.unlink p).dependents p) := by
  refine ⟨fun q hq => h.onGrid q (mem_dropped.mp hq).2, fun q f hf => ?_, fun a q hq => ?_,
    fun a q step => ?_, h.acyclic.mono fun a q step => (feeds_dropped.mp step).2, fun q hq => ?_⟩
  · rw [formula?_dropped] at hf
    split at hf
    · cases hf
    · exact h.parsed q f hf
  · obtain ⟨-, hq, kept⟩ := mem_dependents_dropped.mp hq
    have step := h.sound a q hq
    exact feeds_dropped.mpr ⟨fun same => kept ⟨same, same ▸ step⟩, step⟩
  · obtain ⟨other, step⟩ := feeds_dropped.mp step
    have linked := h.mem_dependents_iff.mpr step
    by_cases ha : a = p
    · subst ha
      exact .inr ⟨mem_dependents_unlink.mpr ⟨linked, fun same => other same.1⟩,
        formula?_dropped.trans (if_pos rfl)⟩
    · exact .inl (mem_dependents_dropped.mpr ⟨ha, linked, fun same => other same.1⟩)
  · by_cases same : p = q
    · subst same
      rw [value_dropped, if_pos rfl, computed, formula?_dropped, if_pos rfl]
    · rw [value_dropped, if_neg same, h.current q List.not_mem_nil]
      refine (computed_congr (formula?_dropped.trans (if_neg same)) operators_dropped
        fun a step => ?_).symm
      rw [value_dropped, if_neg]
      intro same
      subst same
      exact hq (mem_dependents_unlink.mpr ⟨h.mem_dependents_iff.mpr step, fun h => same h.1.symm⟩)

/-- The cells that are pending after a removal are those that referred to the removed one. -/
theorem Settled.mem_pending_iff (h : s.Settled) :
    q ∈ (s.unlink p).dependents p ↔ s.Feeds p q := by
  rw [mem_dependents_unlink, h.mem_dependents_iff]
  exact and_iff_left_of_imp fun feeds both => h.acyclic.not_self p both.2

theorem Settled.pending_known (h : s.Settled) :
    ∀ q ∈ (s.unlink p).dependents p, (s.dropped p).formula? q ≠ none := by
  intro q hq
  have feeds := h.mem_pending_iff.mp hq
  have other : p ≠ q := by
    rintro rfl
    exact h.acyclic.not_self p feeds
  rw [formula?_dropped, if_neg other]
  exact feeds.formula?_ne_none

/-- **Removal.** A removal never fails, keeps the sheet settled and takes one formula away. -/
theorem Settled.removeAt (h : s.Settled) (p : Position) :
    (∃ updates, (s.removeAt p).2 = .ok updates) ∧ (s.removeAt p).1.Settled ∧
      ∀ q, (s.removeAt p).1.formula? q = if p = q then none else s.formula? q := by
  obtain ⟨ok, settled, kept⟩ := (h.dropped p).reenter h.pending_known ∅
  exact ⟨ok, settled, fun q => (kept q).trans formula?_dropped⟩

theorem Settled.remove (h : s.Settled) (cell : String) : (s.remove cell).1.Settled := by
  unfold Sheet.remove
  split
  · exact h
  · exact (h.removeAt _).2.1

/-! ## Other edits -/

theorem read_of_readCell {text : String} (h : readCell text = .ok p) :
    Position.read text = .ok p := by
  unfold readCell at h
  split at h
  · next hp => cases h; exact hp
  · cases h

theorem onGrid_of_readCell {text : String} (h : readCell text = .ok p) : p.OnGrid :=
  Position.onGrid_of_read (read_of_readCell h)

/-- What an entry does depends on the cell and not on how it is named. -/
theorem enter_of_read {cell : String} (named : Position.read cell = .ok p) (text : String) :
    s.enter cell text = s.enterAt p text := by
  rw [Sheet.enter, readCell, named]

theorem Settled.enter (h : s.Settled) (cell text : String) : (s.enter cell text).1.Settled := by
  unfold Sheet.enter
  split
  · exact h
  · next hp => exact h.enterAt (onGrid_of_readCell hp) text

theorem Settled.copy (h : s.Settled) (target source : String) :
    (s.copy target source).1.Settled := by
  unfold Sheet.copy
  split
  · exact h
  · next t ht =>
    split
    · exact h
    · unfold copyAt
      split
      · exact (h.removeAt t).2.1
      · exact h.enterAt (onGrid_of_readCell ht) _

theorem Settled.load (h : s.Settled) (pairs : List (String × String)) : (s.load pairs).1.Settled := by
  induction pairs generalizing s with
  | nil => exact h
  | cons pair pairs ih =>
    have entered := h.enter pair.1 pair.2
    rw [Sheet.load]
    split
    · next e he => rw [he] at entered; exact entered
    · next u hu => rw [hu] at entered; exact ih entered

end Sheet

end Worksheet
