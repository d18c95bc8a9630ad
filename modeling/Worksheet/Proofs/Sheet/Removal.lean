import Worksheet.Proofs.Sheet.Effect

/-!
# What a removal changes

A removal takes the formula of a cell away and enters those that refer to it again, one after the
other in the order of their cells. If these refer to one another, some are evaluated before what
they refer to has its new value, and again later on. What the updates say of a cell is always the
value that it has at that time, because an entry reports every value that it changes, and later
reports replace earlier ones (`Reentered`). So in the end they say the final values, and they say
them of exactly the cells that depended on the removed one.

Results:
* `SettledBut.reentered`: what entering all pending formulas again reports and keeps.
* `Settled.mem_removeAt`: which records there are after a removal.
* `Settled.removed`: what a removal changes in a settled sheet.
* `removed_edits`: what every removal changes after a history.
-/
namespace Worksheet.Sheet

open Relation

variable {s t : Sheet} {p q : Position} {f : Formula} {v : Float} {cell : String}
  {pending : List Position} {updates : Updates}

/-! ## Entering again -/

/-- The sheet `t` and the updates `more` are what comes of `s` and `updates` when the formulas of
the pending cells are entered again. -/
structure Reentered (s : Sheet) (updates : Updates) (pending : List Position) (t : Sheet)
    (more : Updates) : Prop where
  updated : ∀ q, q ∈ more ↔ q ∈ updates ∨ ∃ d ∈ pending, ReflTransGen s.Feeds d q
  reported : ∀ q v, more[q]? = some v → t.value q = v
  kept : ∀ q, (∀ d ∈ pending, ¬ ReflTransGen s.Feeds d q) → t.value q = s.value q
  recorded : ∀ q, q ∈ t.cells ↔
    q ∈ s.cells ∨ ∃ d ∈ pending, ∃ a, ReflTransGen s.Feeds d a ∧ s.Feeds q a

theorem Reentered.getElem?_iff {more : Updates} (h : s.Reentered updates pending t more) :
    more[q]? = some v ↔ q ∈ more ∧ t.value q = v := by
  rw [Std.ExtTreeMap.mem_iff_isSome_getElem?, Option.isSome_iff_exists]
  constructor
  · exact fun hv => ⟨⟨v, hv⟩, h.reported q v hv⟩
  · rintro ⟨⟨w, hw⟩, rfl⟩
    rw [hw, h.reported q w hw]

/-- After an entry of the same formula, the updates that held before and those of the entry hold. -/
theorem SettledBut.reported_union (h : s.SettledBut (p :: pending)) (hf : s.formula? p = some f)
    (reported : ∀ q v, updates[q]? = some v → s.value q = v) :
    ∀ q v, (updates ∪ ((s.place p f).recompute p).2)[q]? = some v →
      ((s.place p f).recompute p).1.value q = v := by
  have placed := h.place_again hf
  intro q v hv
  rw [Std.ExtTreeMap.getElem?_union, Option.or_eq_some_iff] at hv
  rcases hv with new | ⟨none, old⟩
  · exact (placed.getElem?_recompute.mp new).2
  · have apart : ¬ ReflTransGen (s.place p f).Feeds p q := fun path => by
      rw [placed.getElem?_recompute.mpr ⟨path, rfl⟩] at none
      cases none
    rw [placed.value_recompute apart, value_place, reported q v old]

/-- Entering the formulas of all pending cells again never fails. What it reports are the values in
the end, of the pending cells and those that depend on them. -/
theorem SettledBut.reentered (h : s.SettledBut pending)
    (known : ∀ q ∈ pending, s.formula? q ≠ none)
    (reported : ∀ q v, updates[q]? = some v → s.value q = v) :
    ∃ more, (s.reenter updates pending).2 = .ok more ∧
      s.Reentered updates pending (s.reenter updates pending).1 more := by
  induction pending generalizing s updates with
  | nil => exact ⟨updates, rfl, by simp, reported, fun _ _ => rfl, by simp [Sheet.reenter]⟩
  | cons p rest ih =>
    obtain ⟨f, hf⟩ := Option.ne_none_iff_exists'.mp (known p List.mem_cons_self)
    obtain ⟨entered, settled⟩ := h.enterAt_again hf
    have placed := h.place_again hf
    have feeds : (s.place p f).Feeds = s.Feeds := by
      funext a b
      exact propext (feeds_place_again hf)
    have later : ((s.place p f).recompute p).1.Feeds = s.Feeds := (feeds_recompute _ p).trans feeds
    have same (q : Position) : ((s.place p f).recompute p).1.formula? q = s.formula? q :=
      formula?_evaluateEach.trans (formula?_place_again hf q)
    have still : ∀ q ∈ rest, ((s.place p f).recompute p).1.formula? q ≠ none := fun q hq => by
      rw [same]
      exact known q (List.mem_cons_of_mem p hq)
    rw [Sheet.reenter, hf]
    simp only [entered]
    obtain ⟨more, ok, effect⟩ := ih settled still (h.reported_union hf reported)
    refine ⟨more, ok, fun q => ?_, effect.reported, fun q apart => ?_, fun q => ?_⟩
    · simp only [effect.updated, Std.ExtTreeMap.mem_union_iff, placed.mem_updates, later, feeds,
        List.mem_cons, exists_eq_or_imp, or_assoc]
    · simp only [List.mem_cons, forall_eq_or_imp] at apart
      rw [effect.kept q (later ▸ apart.2), placed.value_recompute (feeds ▸ apart.1), value_place]
    · have own : q = p ∨ q ∈ s.cells ↔ q ∈ s.cells :=
        or_iff_right_of_imp fun same => same ▸ mem_of_formula? hf
      simp only [effect.recorded, placed.mem_recompute, mem_place, own, later, feeds, List.mem_cons,
        exists_eq_or_imp, or_assoc]

/-! ## Removals -/

/-- The sheet `t` and the updates are what comes of `s` when the record of `p` is removed. -/
structure Removed (s : Sheet) (p : Position) (t : Sheet) (updates : Updates) : Prop where
  /-- The formula of one cell is gone, the others are as they were. -/
  formula : ∀ q, t.formula? q = if p = q then none else s.formula? q
  /-- The updates are the new values of the cells that depended on the removed one, near or far. -/
  updated : ∀ q v, updates[q]? = some v ↔ TransGen s.Feeds p q ∧ t.value q = v
  /-- The removed cell is not among them. -/
  apart : p ∉ updates
  /-- All other cells keep their values. -/
  kept : ∀ q, q ≠ p → q ∉ updates → t.value q = s.value q
  /-- The removed cell is no dependent any more. No other link changes. -/
  links : ∀ q x, x ∈ t.dependents q ↔ x ≠ p ∧ x ∈ s.dependents q
  /-- The other cells with records are the same. -/
  recorded : ∀ q, q ≠ p → (q ∈ t.cells ↔ q ∈ s.cells)
  /-- The removed cell has a record again if a formula refers to it. -/
  recorded_self : p ∈ t.cells ↔ ∃ q, t.Feeds p q
  /-- That record is worth zero and has no formula, but the dependents which it had before. -/
  record : ∀ c, t.cells[p]? = some c → c = ⟨0.0, none, (s.cell p).dependents⟩

/-- A path from a cell that depends on `p` does without the references of `p`. -/
theorem reaches_dropped_iff (acyclic : Acyclic s.Feeds) {d : Position} (feeds : s.Feeds p d) :
    ReflTransGen (s.dropped p).Feeds d q ↔ ReflTransGen s.Feeds d q := by
  constructor
  · exact fun path => ReflTransGen.mono (fun a b step => (feeds_dropped.mp step).2) _ _ path
  · intro path
    induction path with
    | refl => exact .refl
    | tail path step ih =>
      refine ih.tail (feeds_dropped.mpr ⟨?_, step⟩)
      rintro rfl
      exact acyclic.not_reaches_back feeds (path.tail step)

theorem Settled.exists_pending_iff (h : s.Settled) :
    (∃ d ∈ (s.unlink p).dependents p, ReflTransGen (s.dropped p).Feeds d q) ↔
      TransGen s.Feeds p q := by
  rw [TransGen.head'_iff]
  refine exists_congr fun d => ?_
  rw [h.mem_pending_iff]
  exact and_congr_right fun feeds => reaches_dropped_iff h.acyclic feeds

theorem Settled.feeds_removeAt (h : s.Settled) {a b : Position} :
    (s.removeAt p).1.Feeds a b ↔ b ≠ p ∧ s.Feeds a b := by
  have formula := (h.removeAt p).2.2 b
  rw [← feeds_dropped, Feeds, references_congr (formula.trans formula?_dropped.symm), Feeds]

theorem Settled.mem_dependents_removeAt (h : s.Settled) {x : Position} :
    x ∈ (s.removeAt p).1.dependents q ↔ x ≠ p ∧ x ∈ s.dependents q := by
  rw [(h.removeAt p).2.1.mem_dependents_iff, h.mem_dependents_iff, h.feeds_removeAt]

/-- What is left of the record of the removed cell. -/
theorem Settled.cell_removeAt (h : s.Settled) (p : Position) :
    (s.removeAt p).1.cell p = ⟨0.0, none, (s.cell p).dependents⟩ := by
  obtain ⟨-, settled, formula⟩ := h.removeAt p
  have dependents : ((s.removeAt p).1.cell p).dependents = (s.cell p).dependents := by
    refine Std.ExtTreeSet.ext_mem fun x => ?_
    rw [← mem_dependents, ← mem_dependents, h.mem_dependents_removeAt]
    refine and_iff_right_of_imp fun linked same => ?_
    exact h.acyclic.not_self p (h.sound p p (same ▸ linked))
  rw [settled.cell_of_bare ((formula p).trans (if_pos rfl)), dependents]

/-- A removal enters the formulas again that referred to the removed cell. -/
theorem Settled.reentered (h : s.Settled) (p : Position) :
    ∃ updates, (s.removeAt p).2 = .ok updates ∧
      (s.dropped p).Reentered ∅ ((s.unlink p).dependents p) (s.removeAt p).1 updates := by
  have nothing : ∀ q v, (∅ : Updates)[q]? = some v → (s.dropped p).value q = v :=
    fun q v none => by simp at none
  exact (h.dropped p).reentered h.pending_known nothing

/-- The records after a removal. That of the removed cell is made again if a formula refers to it.
-/
theorem Settled.mem_removeAt (h : s.Settled) : q ∈ (s.removeAt p).1.cells ↔
    (q ≠ p ∧ q ∈ s.cells) ∨ ∃ x, (s.removeAt p).1.Feeds q x := by
  obtain ⟨-, settled, -⟩ := h.removeAt p
  obtain ⟨updates, -, effect⟩ := h.reentered p
  constructor
  · intro recorded
    rcases (effect.recorded q).mp recorded with old | ⟨-, -, a, -, feeds⟩
    · exact .inl (mem_dropped.mp old)
    · exact .inr ⟨a, h.feeds_removeAt.mpr (feeds_dropped.mp feeds)⟩
  · intro recorded
    rcases recorded with old | ⟨x, feeds⟩
    · exact (effect.recorded q).mpr (.inl (mem_dropped.mpr old))
    · exact settled.mem_of_feeds feeds

/-- What a removal changes in a settled sheet, where it never fails. -/
theorem Settled.removed (h : s.Settled) (p : Position) :
    ∃ updates, (s.removeAt p).2 = .ok updates ∧ s.Removed p (s.removeAt p).1 updates := by
  obtain ⟨-, -, formula⟩ := h.removeAt p
  obtain ⟨updates, ok, effect⟩ := h.reentered p
  have mem {q : Position} : q ∈ updates ↔ TransGen s.Feeds p q := by
    rw [effect.updated, h.exists_pending_iff]
    exact or_iff_right Std.ExtTreeMap.not_mem_empty
  refine ⟨updates, ok, formula, fun q v => ?_, fun self => h.acyclic p (mem.mp self),
    fun q other hq => ?_, fun q x => h.mem_dependents_removeAt, fun q other => ?_, ?_,
    fun c hc => ?_⟩
  · rw [← mem, effect.getElem?_iff]
  · have free : ∀ d ∈ (s.unlink p).dependents p, ¬ ReflTransGen (s.dropped p).Feeds d q :=
      fun d hd path => hq (mem.mpr (h.exists_pending_iff.mp ⟨d, hd, path⟩))
    rw [effect.kept q free, value_dropped, if_neg (Ne.symm other)]
  · rw [h.mem_removeAt]
    constructor
    · rintro (⟨-, known⟩ | ⟨x, feeds⟩)
      · exact known
      · exact h.mem_of_feeds (h.feeds_removeAt.mp feeds).2
    · exact fun known => .inl ⟨other, known⟩
  · rw [h.mem_removeAt]
    exact or_iff_right fun both => both.1 rfl
  · rw [← h.cell_removeAt p, cell, hc]
    rfl

theorem removeAt_of_not_mem (absent : p ∉ s.cells) : s.removeAt p = (s, .ok ∅) := by
  have bare : s.formula? p = none := by rw [formula?, cell_of_not_mem absent]; rfl
  have unlinked : s.unlink p = s := by rw [unlink, references_eq_nil bare]; rfl
  have erased : s.cells.erase p = s.cells := by
    refine Std.ExtTreeMap.ext_getElem? fun q => ?_
    rw [Std.ExtTreeMap.getElem?_erase]
    split
    · next same =>
      rw [← Std.LawfulEqCmp.eq_of_compare same, Std.ExtTreeMap.getElem?_eq_none absent]
    · rfl
  have alone : s.dependents p = [] := s.dependents_eq_nil p (by simpa using absent)
  rw [removeAt, unlinked, erased, alone, reenter]

/-- **Effect of a removal.** After every history a removal is never refused. It changes the formula
of the cell that it names, the values of the cells that depend on it, the links of its formula, and
nothing else, and it returns the new values. If the cell has no record, nothing changes at all. -/
theorem removed_edits (name : String) (operators : Op → List Float → Float) (es : List Edit)
    (named : Position.read cell = .ok p) :
    let s := (blank name operators).edits es
    (p ∈ s.cells → ∃ updates, (s.remove cell).2 = .ok updates ∧
      s.Removed p (s.remove cell).1 updates) ∧
    (p ∉ s.cells → s.remove cell = (s, .ok ∅)) := by
  intro s
  have settled : s.Settled := settled_edits name operators es
  have removed : s.remove cell = s.removeAt p := by rw [Sheet.remove, readCell, named]
  rw [removed]
  exact ⟨fun _ => settled.removed p, removeAt_of_not_mem⟩

theorem feeds_multiplied :
    ((blank "sheet" Op.apply).edits [.enter "b1" "-a$1 / 2", .enter "c1" "a1 * b1"]).Feeds p q ↔
      (p = ⟨0, 0⟩ ∧ q = ⟨1, 0⟩) ∨ ((p = ⟨0, 0⟩ ∨ p = ⟨1, 0⟩) ∧ q = ⟨2, 0⟩) := by
  have c1 : Position.read "c1" = .ok ⟨2, 0⟩ := by decide +kernel
  have multiplied : ((Expr.parse ⟨2, 0⟩ "a1 * b1").toOption.any fun tree =>
      tree.references ⟨2, 0⟩ = [⟨0, 0⟩, ⟨1, 0⟩]) = true := by decide +kernel
  obtain ⟨product, parsed, multiplied⟩ := exists_ok_of_any multiplied
  have targets : product.references ⟨2, 0⟩ = [⟨0, 0⟩, ⟨1, 0⟩] := of_decide_eq_true multiplied
  have trees : ((blank "sheet" Op.apply).edits
      [.enter "b1" "-a$1 / 2", .enter "c1" "a1 * b1"]).trees = Function.update
        ((blank "sheet" Op.apply).edits [.enter "b1" "-a$1 / 2"]).trees ⟨2, 0⟩ (some product) := by
    refine (settled_edits "sheet" Op.apply [.enter "b1" "-a$1 / 2"]).enter_unread c1 parsed
      (fun q feeds => ?_) (by rw [targets]; decide)
    exact absurd (feeds_halved.mp (feedsBy_trees.mp feeds)).1 (by decide)
  rw [← feedsBy_trees, trees, feedsBy_update, feedsBy_trees, feeds_halved, targets]
  split
  · next entered =>
    subst entered
    simp
  · next other => simp [other]

/-- Two cells that refer to the removed one, of which one refers to the other. -/
theorem removed_under_b1 :
    let s := (blank "sheet" Op.apply).edits [.enter "b1" "-a$1 / 2", .enter "c1" "a1 * b1"]
    Position.read "$A$1" = .ok ⟨0, 0⟩ ∧ ⟨0, 0⟩ ∈ s.cells ∧
      ∃ updates, (s.remove "$A$1").2 = .ok updates ∧ ⟨1, 0⟩ ∈ updates ∧ ⟨2, 0⟩ ∈ updates ∧
        s.Removed ⟨0, 0⟩ (s.remove "$A$1").1 updates := by
  intro s
  have a1 : Position.read "$A$1" = .ok ⟨0, 0⟩ := by decide +kernel
  have settled : s.Settled := settled_edits "sheet" Op.apply _
  have b1 : s.Feeds ⟨0, 0⟩ ⟨1, 0⟩ := feeds_multiplied.mpr (.inl ⟨rfl, rfl⟩)
  have c1 : s.Feeds ⟨0, 0⟩ ⟨2, 0⟩ := feeds_multiplied.mpr (.inr ⟨.inl rfl, rfl⟩)
  have known : ⟨0, 0⟩ ∈ s.cells := settled.mem_of_feeds b1
  obtain ⟨updates, ok, removed⟩ := (removed_edits "sheet" Op.apply
    [.enter "b1" "-a$1 / 2", .enter "c1" "a1 * b1"] a1).1 known
  have updated {q : Position} (feeds : s.Feeds ⟨0, 0⟩ q) : q ∈ updates :=
    Std.ExtTreeMap.mem_iff_isSome_getElem?.mpr
      (Option.isSome_of_eq_some ((removed.updated q _).mpr ⟨.single feeds, rfl⟩))
  exact ⟨a1, known, updates, ok, updated b1, updated c1, removed⟩

end Worksheet.Sheet
