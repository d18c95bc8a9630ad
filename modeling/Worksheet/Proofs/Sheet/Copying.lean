import Worksheet.Proofs.Formula.RoundTrip
import Worksheet.Proofs.Sheet.Effect

/-!
# What a copy does

A copy goes through text: the tree of a formula is written for another cell, and the text is entered
there. The text says the same tree or is refused, so a copy finds no more errors than an entry of
the tree would. It is malformed if a reference leads off the grid, and circular if a cycle comes of
it.

What is copied is stored with the same tree, so the copy of a copy is a copy of the first formula. A
row of copies, each made from the last, is a load of the texts that the one tree has at their cells
(`relay_eq_load`).

Results:
* `copy_eq_enter`, `copy_eq_remove`: a copy is an entry, or a removal if there is nothing to copy.
* `Settled.copied`: what a copy of a formula does to a settled sheet.
* `relay_eq_load`: copies of copies do not differ from copies of the first formula.
* `copied_edits`: what every copy does after a history.
-/
namespace Worksheet.Sheet

variable {s : Sheet} {p q base : Position} {f : Formula} {tree : Expr}
  {cell target source text : String} {updates : Updates}

/-! ## Copies as entries -/

theorem copy_eq_enter (named : Position.read target = .ok p) (other : Position.read source = .ok q)
    (hf : s.formula? q = some f) : s.copy target source = s.enter target (f.tree.text p) := by
  rw [copy, Sheet.enter, readCell, named]
  simp only [readCell, other, copyAt, hf]

theorem copy_eq_remove (named : Position.read target = .ok p)
    (other : Position.read source = .ok q) (bare : s.formula? q = none) :
    s.copy target source = s.remove target := by
  rw [copy, Sheet.remove, readCell, named]
  simp only [readCell, other, copyAt, bare]

theorem enter_malformed {e : FormulaError} (named : Position.read cell = .ok p)
    (malformed : Expr.parse p text = .error e) :
    s.enter cell text = (s, .error (.badFormula e)) := by
  rw [enter_of_read named]
  simp only [enterAt, malformed]

theorem formula?_enter (named : Position.read cell = .ok p) (parsed : Expr.parse p text = .ok tree)
    (ok : (s.enter cell text).2 = .ok updates) :
    (s.enter cell text).1.formula? p = some ⟨Text.strip text, tree⟩ := by
  obtain ⟨p', tree', named', parsed', -, entered⟩ := exists_placed_of_enter ok
  obtain rfl : p = p' := Except.ok.inj (named.symm.trans named')
  obtain rfl : tree = tree' := Except.ok.inj (parsed.symm.trans parsed')
  rw [entered, formula?_recompute_place, if_pos rfl]

theorem resolves_of_not_astray (h : ¬ ∃ r ∈ tree.targets, r.resolve? p = none) :
    tree.Resolves p :=
  fun r hr => Option.isSome_iff_ne_none.mpr fun none => h ⟨r, hr, none⟩

/-- The text of a parsed tree can only be accepted for a cell as that tree. -/
theorem formula?_enter_text (parsed : Expr.parse base text = .ok tree)
    (named : Position.read cell = .ok p) (ok : (s.enter cell (tree.text p)).2 = .ok updates) :
    (s.enter cell (tree.text p)).1.formula? p = some ⟨Text.strip (tree.text p), tree⟩ := by
  by_cases astray : ∃ r ∈ tree.targets, r.resolve? p = none
  · obtain ⟨offset, refused⟩ := Expr.parse_text_astray parsed astray
    rw [enter_malformed named refused] at ok
    cases ok
  · exact formula?_enter named (Expr.parse_text_resolved parsed (resolves_of_not_astray astray)) ok

/-! ## One copy -/

/-- The sheet `t` and the outcome are what comes of `s` when a formula with the given tree is copied
to `target`, which names the cell `p`. -/
structure Copied (s : Sheet) (target : String) (p : Position) (tree : Expr) (t : Sheet)
    (outcome : Except EntryError Updates) : Prop where
  /-- The copy is malformed if and only if some reference leads off the grid. -/
  malformed : (∃ e, outcome = .error e ∧ e.code = "SYNTAX") ↔
    ∃ r ∈ tree.targets, r.resolve? p = none
  /-- If none does, it is circular if and only if a cycle comes of it. -/
  circular : (∀ r ∈ tree.targets, (r.resolve? p).isSome) →
    ((∃ e, outcome = .error e ∧ e.code = "CIRCULAR_REF") ↔
      ¬ Acyclic (FeedsBy (Function.update s.trees p (some tree))))
  /-- Else it is accepted, and the cell has the same tree, with the text of the tree there. -/
  placed : (∀ r ∈ tree.targets, (r.resolve? p).isSome) →
    Acyclic (FeedsBy (Function.update s.trees p (some tree))) →
    (∃ updates, outcome = .ok updates) ∧ t.formula? p = some ⟨Text.strip (tree.text p), tree⟩
  /-- From there every copy is an entry of the text that the tree has at the next cell. -/
  again : ∀ updates, outcome = .ok updates → ∀ cell x, Position.read cell = .ok x →
    t.copy cell target = t.enter cell (tree.text x)

/-- What comes of the text of a parsed tree when it is entered for a cell of a settled sheet. -/
theorem Settled.copied (h : s.Settled) (parsed : Expr.parse base text = .ok tree)
    (named : Position.read target = .ok p) :
    s.Copied target p tree (s.enter target (tree.text p)).1 (s.enter target (tree.text p)).2 := by
  have again (updates : Updates) (ok : (s.enter target (tree.text p)).2 = .ok updates)
      (cell : String) (x : Position) (next : Position.read cell = .ok x) :
      (s.enter target (tree.text p)).1.copy cell target =
        (s.enter target (tree.text p)).1.enter cell (tree.text x) := by
    rw [copy_eq_enter next named (formula?_enter_text parsed named ok)]
  by_cases astray : ∃ r ∈ tree.targets, r.resolve? p = none
  · obtain ⟨offset, refused⟩ := Expr.parse_text_astray parsed astray
    have outcome : (s.enter target (tree.text p)).2 =
        .error (.badFormula (.unexpectedChar '#' offset)) := by
      rw [enter_malformed named refused]
    have lost (leads : ∀ r ∈ tree.targets, (r.resolve? p).isSome) : False := by
      obtain ⟨r, hr, none⟩ := astray
      exact absurd none (Option.isSome_iff_ne_none.mp (leads r hr))
    exact ⟨iff_of_true ⟨_, outcome, rfl⟩ astray, fun leads => (lost leads).elim,
      fun leads => (lost leads).elim, again⟩
  · have same := Expr.parse_text_resolved parsed (resolves_of_not_astray astray)
    rcases h.enter_cases named same with
      ⟨acyclic, ⟨updates, ok⟩, -⟩ | ⟨cycle, via, -, refused⟩
    · have accepted (code : String) :
          ¬ ∃ e, (s.enter target (tree.text p)).2 = .error e ∧ e.code = code := by
        intro failed
        obtain ⟨e, failed, -⟩ := failed
        rw [ok] at failed
        cases failed
      exact ⟨iff_of_false (accepted _) astray,
        fun _ => iff_of_false (accepted _) (not_not_intro acyclic),
        fun _ _ => ⟨⟨updates, ok⟩, formula?_enter_text parsed named ok⟩, again⟩
    · refine ⟨iff_of_false (fun failed => ?_) astray,
        fun _ => iff_of_true ⟨_, refused, rfl⟩ cycle, fun _ acyclic => absurd acyclic cycle, again⟩
      obtain ⟨e, failed, code⟩ := failed
      rw [refused] at failed
      cases failed
      have other : "CIRCULAR_REF" = "SYNTAX" := code
      exact absurd other (by decide)

/-! ## Copies of copies -/

/-- Copies the formula of a cell to the first of some cells, from there to the second, and so on, up
to the first copy that is refused. -/
def relay (s : Sheet) (source : String) : List String → Sheet × Except EntryError Unit
  | [] => (s, .ok ())
  | target :: targets =>
    match s.copy target source with
    | (s, .error e) => (s, .error e)
    | (s, .ok _) => relay s target targets

/-- However far a formula is handed on, its tree is the first one: the copies come to the same as
entering the texts that this tree has at their cells. -/
theorem relay_eq_load (parsed : Expr.parse base text = .ok tree)
    (other : Position.read source = .ok q) (hf : s.formula? q = some f) (same : f.tree = tree)
    {cells : List (String × Position)} (named : ∀ c ∈ cells, Position.read c.1 = .ok c.2) :
    s.relay source (cells.map Prod.fst) = s.load (cells.map fun c => (c.1, tree.text c.2)) := by
  induction cells generalizing s source q f with
  | nil => rfl
  | cons c cells ih =>
    obtain ⟨first, rest⟩ := List.forall_mem_cons.mp named
    have copied := copy_eq_enter first other hf
    rw [same] at copied
    have stored {updates : Updates} (ok : (s.enter c.1 (tree.text c.2)).2 = .ok updates) :=
      formula?_enter_text parsed first ok
    rw [List.map_cons, List.map_cons, relay, load, copied]
    generalize s.enter c.1 (tree.text c.2) = result at stored ⊢
    obtain ⟨t, outcome⟩ := result
    cases outcome with
    | error e => rfl
    | ok updates => exact ih first (stored rfl) rfl rest

/-! ## Histories -/

/-- **Copies keep formulas.** After every history, a copy of a formula is refused if and only if a
reference leads off the grid at its new place or a cycle comes of it. Else the cell gets the same
tree, and copies of the copy are copies of the first formula, however many are made. A copy of a
cell without a formula is a removal. -/
theorem copied_edits (name : String) (operators : Op → List Float → Float) (es : List Edit)
    (named : Position.read target = .ok p) (other : Position.read source = .ok q) :
    let s := (blank name operators).edits es
    (∀ f, s.formula? q = some f →
      s.Copied target p f.tree (s.copy target source).1 (s.copy target source).2 ∧
      ∀ cells : List (String × Position), (∀ c ∈ cells, Position.read c.1 = .ok c.2) →
        s.relay source (cells.map Prod.fst) =
          s.load (cells.map fun c => (c.1, f.tree.text c.2))) ∧
    (s.formula? q = none → s.copy target source = s.remove target) := by
  intro s
  have settled : s.Settled := settled_edits name operators es
  refine ⟨fun f hf => ?_, copy_eq_remove named other⟩
  have parsed : Expr.parse q f.text = .ok f.tree := (settled.parsed q f hf).1
  rw [copy_eq_enter named other hf]
  exact ⟨settled.copied parsed named, fun cells each => relay_eq_load parsed other hf rfl each⟩

/-- A copy to `c3`, and one that leads off the grid. -/
theorem copied_to_c3 :
    let s := (blank "sheet" Op.apply).edits [.enter "b2" "2 * a$1"]
    Position.read "$C$3" = .ok ⟨2, 2⟩ ∧ Position.read "a4" = .ok ⟨0, 3⟩ ∧
      Position.read "B2" = .ok ⟨1, 1⟩ ∧
      ∃ f, s.formula? ⟨1, 1⟩ = some f ∧
        (∃ updates, (s.copy "$C$3" "B2").2 = .ok updates) ∧
        (s.copy "$C$3" "B2").1.formula? ⟨2, 2⟩ = some ⟨"2*b$1", f.tree⟩ ∧
        (∃ e, (s.copy "a4" "B2").2 = .error e ∧ e.code = "SYNTAX") := by
  intro s
  have b2 : Position.read "b2" = .ok ⟨1, 1⟩ := by decide +kernel
  have source : Position.read "B2" = .ok ⟨1, 1⟩ := by decide +kernel
  have c3 : Position.read "$C$3" = .ok ⟨2, 2⟩ := by decide +kernel
  have a4 : Position.read "a4" = .ok ⟨0, 3⟩ := by decide +kernel
  have doubled : ((Expr.parse ⟨1, 1⟩ "2 * a$1").toOption.any fun tree =>
      tree.references ⟨1, 1⟩ = [⟨0, 0⟩] ∧ tree.references ⟨2, 2⟩ = [⟨1, 0⟩] ∧
      Text.strip (tree.text ⟨2, 2⟩) = "2*b$1" ∧
      (∀ r ∈ tree.targets, (r.resolve? ⟨2, 2⟩).isSome) ∧
      ∃ r ∈ tree.targets, r.resolve? ⟨0, 3⟩ = none) = true := by decide +kernel
  obtain ⟨double, parsed, doubled⟩ := exists_ok_of_any doubled
  obtain ⟨here, there, written, leads, astray⟩ := of_decide_eq_true doubled
  have settled : s.Settled := settled_edits "sheet" Op.apply _
  have trees : s.trees = Function.update (blank "sheet" Op.apply).trees ⟨1, 1⟩ (some double) :=
    (settled_blank "sheet" Op.apply).enter_unread b2 parsed
      (fun q => not_feedsBy_blank "sheet" Op.apply) (by rw [here]; decide)
  obtain ⟨f, hf, rfl⟩ : ∃ f, s.formula? ⟨1, 1⟩ = some f ∧ f.tree = double := by
    have stored : s.trees ⟨1, 1⟩ = some double := by rw [trees, Function.update_self]
    exact Option.map_eq_some_iff.mp stored
  have acyclic : Acyclic (FeedsBy (Function.update s.trees ⟨2, 2⟩ (some f.tree))) := by
    refine settled.acyclic_of_bare fun q mem => ?_
    rw [there, List.mem_singleton] at mem
    subst mem
    refine ⟨by decide, fun a feeds => ?_⟩
    rw [← feedsBy_trees, trees, feedsBy_update, if_neg (by decide)] at feeds
    exact not_feedsBy_blank "sheet" Op.apply feeds
  obtain ⟨copies, -⟩ := copied_edits "sheet" Op.apply [.enter "b2" "2 * a$1"] c3 source
  obtain ⟨off, -⟩ := copied_edits "sheet" Op.apply [.enter "b2" "2 * a$1"] a4 source
  obtain ⟨accepted, stored⟩ := (copies f hf).1.placed leads acyclic
  refine ⟨c3, a4, source, f, hf, accepted, ?_, (off f hf).1.malformed.mpr astray⟩
  rw [← written]
  exact stored

end Worksheet.Sheet
