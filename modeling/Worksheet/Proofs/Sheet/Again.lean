import Worksheet.Proofs.Sheet.Ripple

/-!
# Entering a formula again

An entry first takes the links of the old formula away, and then makes those of the new one. When
the formula is the one that the cell has, the links that are taken away are those that are made, the
records that the formula needs are there, and all values are those that the formulas come to: the
entry comes back to the sheet that it started from. The clash with cells that depend on the entered
one is looked for while the links of the formula are still there, and finds none, since no cell
depends on itself.

Results:
* `Settled.recompute_place_again`: the formula of a cell, placed once more, leads back to the sheet.
* `Settled.enter_own`: so does every text that is read as that formula.
* `enter_again_edits`: an entry that is not refused may be repeated, with the text that was entered
  or the one that was stored, and changes nothing more.
-/
namespace Worksheet.Sheet

variable {s t : Sheet} {p : Position} {f g : Formula} {updates more : Updates} {cell text : String}

theorem Entered.updates_eq {s' : Sheet} (h : s.Entered p f t updates) (h' : s'.Entered p g t more) :
    more = updates :=
  Std.ExtTreeMap.ext_getElem? fun q => Option.ext fun v => (h'.updated q v).trans (h.updated q v).symm

/-- The formula of a cell may be entered for it in a settled sheet. -/
theorem Settled.entered_own (h : s.Settled) (hf : s.formula? p = some f) :
    s.Entered p f ((s.place p f).recompute p).1 ((s.place p f).recompute p).2 :=
  h.entered (h.onGrid p (mem_of_formula? hf)) (h.parsed p f hf) (h.clash?_eq_none hf)

/-- All links and records that the formula of a cell needs have been made. -/
theorem Settled.revalued_own (h : s.Settled) (hf : s.formula? p = some f) :
    s.Revalued ((s.place p f).recompute p).1 where
  name := name_evaluateEach.trans name_place
  operators := operators_recompute.trans operators_place
  formula q := formula?_evaluateEach.trans (formula?_place_again hf q)
  recorded q := by
    rw [(h.entered_own hf).recorded]
    constructor
    · rintro (known | rfl | mem)
      · exact known
      · exact mem_of_formula? hf
      · -- The cell is a dependent of those that its formula refers to, so they have records.
        exact h.mem_of_feeds (feeds_iff.mpr ⟨f, hf, mem⟩)
    · exact .inl
  links a q := by
    by_cases same : q = p
    · subst same
      rw [(h.entered_own hf).linked, h.mem_dependents_iff, Feeds, references_eq hf]
    · exact (h.entered_own hf).links a q same

/-- The formula of a cell, placed once more, leads back to the sheet: its links are taken away and
made again, and the values were those that the formulas come to. -/
theorem Settled.recompute_place_again (h : s.Settled) (hf : s.formula? p = some f) :
    ((s.place p f).recompute p).1 = s := by
  have placed := h.placed (h.onGrid p (mem_of_formula? hf)) (h.parsed p f hf) (h.clash?_eq_none hf)
  exact (h.revalued_own hf).eq h placed.settled

/-- A text that is read as the formula of a cell, and that loses its blanks to the text of that
formula, is accepted for the cell and changes nothing. -/
theorem Settled.enter_own (h : s.Settled) (named : Position.read cell = .ok p)
    (hf : s.formula? p = some f) (parsed : Expr.parse p text = .ok f.tree)
    (stripped : Text.strip text = f.text) :
    s.enter cell text = (s, .ok ((s.place p f).recompute p).2) := by
  rw [enter_of_read named, enterAt_eq parsed (h.clash?_eq_none hf), stripped,
    h.recompute_place_again hf]

/-- **Entering again.** After every history, an entry that is not refused is not refused either when
it is repeated at once, with the same text or with the text that is stored for the cell. Each time
it returns the same updates, and the sheet stays as the first entry left it, every record of it. -/
theorem enter_again_edits (name : String) (operators : Op → List Float → Float) (es : List Edit)
    (ok : (((blank name operators).edits es).enter cell text).2 = .ok updates) :
    let t := (((blank name operators).edits es).enter cell text).1
    ∃ p f, Position.read cell = .ok p ∧ t.formula? p = some f ∧ f.text = Text.strip text ∧
      t.enter cell text = (t, .ok updates) ∧ t.enter cell f.text = (t, .ok updates) := by
  intro t
  have start := settled_edits name operators es
  have settled : t.Settled := start.enter cell text
  obtain ⟨p, tree, named, parsed, free, entered⟩ := exists_placed_of_enter ok
  have first : ((blank name operators).edits es).Entered p ⟨Text.strip text, tree⟩ t updates := by
    have first := start.entered (Position.onGrid_of_read named) (.strip parsed) free
    rw [entered] at ok
    cases ok
    rwa [show t = _ from congrArg Prod.fst entered]
  have hf : t.formula? p = some ⟨Text.strip text, tree⟩ := by rw [first.formula, if_pos rfl]
  -- The second entry starts at `t` and leads back to it, so both report the values of `t`.
  have second := settled.entered_own hf
  rw [settled.recompute_place_again hf] at second
  have same := first.updates_eq second
  refine ⟨p, _, named, hf, rfl, ?_, ?_⟩
  · rw [settled.enter_own named hf parsed rfl, same]
  · rw [settled.enter_own named hf (Expr.parse_strip parsed) (Text.strip_strip text), same]

/-- A repeated entry for a cell that another depends on. It has made a record for a third, and its
text is stored without the blanks. -/
theorem enter_again_under_b1 :
    let s := (blank "sheet" Op.apply).edits [.enter "b1" "-a$1 / 2"]
    let t := (s.enter "$A$1" "7 + c2").1
    Text.strip "7 + c2" = "7+c2" ∧ ∃ updates, (s.enter "$A$1" "7 + c2").2 = .ok updates ∧
      ∃ p f, Position.read "$A$1" = .ok p ∧ t.formula? p = some f ∧
        f.text = Text.strip "7 + c2" ∧
        t.enter "$A$1" "7 + c2" = (t, .ok updates) ∧ t.enter "$A$1" f.text = (t, .ok updates) := by
  intro s t
  have a1 : Position.read "$A$1" = .ok ⟨0, 0⟩ := by decide +kernel
  have added : ((Expr.parse ⟨0, 0⟩ "7 + c2").toOption.any fun tree =>
      tree.references ⟨0, 0⟩ = [⟨2, 1⟩]) = true := by decide +kernel
  obtain ⟨sum, parsed, added⟩ := exists_ok_of_any added
  have targets : sum.references ⟨0, 0⟩ = [⟨2, 1⟩] := of_decide_eq_true added
  have settled : s.Settled := settled_edits "sheet" Op.apply _
  obtain ⟨updates, ok⟩ : ∃ updates, (s.enter "$A$1" "7 + c2").2 = .ok updates := by
    refine settled.exists_enter_ok a1 parsed fun q mem => ?_
    rw [targets, List.mem_singleton] at mem
    subst mem
    exact ⟨by decide, fun a feeds => absurd (feeds_halved.mp feeds).2 (by decide)⟩
  exact ⟨by decide +kernel, updates, ok,
    enter_again_edits "sheet" Op.apply [.enter "b1" "-a$1 / 2"] ok⟩

end Worksheet.Sheet
