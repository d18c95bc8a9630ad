import Worksheet.Proofs.Sheet.History
import Worksheet.Shell.Session

/-!
# Lines that fail

A line that fails changes nothing. Most commands find their errors before they change the sheet; a
removal does not, since it takes the record away before it enters the formulas of the dependents
again, and each of these entries may be refused as far as its type says. On a settled sheet none is,
so what could be left half done never is.

The files may be any; only the sheet and the output are spoken of.

Results:
* `Settled.remove_ok`, `Settled.copy_bare_ok`: a removal that names a cell does not fail.
* `Session.atomic_run`: a command that fails leaves the sheet as it was.
* `Session.runLine_error_edits`: what a line that fails leaves, after every history.
-/
namespace Worksheet

/-- If a call fails, it leaves the sheet `s` as it was. -/
def Atomic {ε α : Type} (s : Sheet) (result : Sheet × Except ε α) : Prop :=
  ∀ e, result.2 = .error e → result.1 = s

variable {s : Sheet}

theorem Atomic.map {ε α β : Type} {result : Sheet × Except ε α} (f : α → β) (h : Atomic s result) :
    Atomic s (result.1, result.2.map f) := by
  obtain ⟨t, outcome⟩ := result
  cases outcome with
  | error e => exact fun _ _ => h e rfl
  | ok a => exact nofun

theorem Atomic.entered {result : Sheet × Except EntryError Updates} (h : Atomic s result) :
    Atomic s (Session.entered result) := by
  obtain ⟨t, outcome⟩ := result
  cases outcome with
  | error e => exact fun _ _ => h e rfl
  | ok updates => exact nofun

namespace Sheet

variable {p q : Position} {cell target source : String}

/-! ## Edits -/

theorem atomic_enterAt (s : Sheet) (p : Position) (text : String) :
    Atomic s (s.enterAt p text) := by
  intro e failed
  rcases enterAt_cases s p text with ⟨_, refused⟩ | ⟨_, -, -, entered⟩
  · rw [refused]
  · rw [entered] at failed
    cases failed

theorem atomic_enter (s : Sheet) (cell text : String) : Atomic s (s.enter cell text) := by
  unfold enter
  split
  · exact fun _ _ => rfl
  · exact atomic_enterAt s _ text

theorem Settled.atomic_removeAt (h : s.Settled) (p : Position) : Atomic s (s.removeAt p) := by
  intro e failed
  -- A refused entry would leave half a removal, but no entry is refused.
  obtain ⟨⟨_, removed⟩, -⟩ := h.removeAt p
  rw [removed] at failed
  cases failed

theorem Settled.atomic_remove (h : s.Settled) (cell : String) : Atomic s (s.remove cell) := by
  unfold Sheet.remove
  split
  · exact fun _ _ => rfl
  · exact h.atomic_removeAt _

theorem Settled.atomic_copy (h : s.Settled) (target source : String) :
    Atomic s (s.copy target source) := by
  unfold Sheet.copy
  split
  · exact fun _ _ => rfl
  · split
    · exact fun _ _ => rfl
    · unfold copyAt
      split
      · exact h.atomic_removeAt _
      · exact atomic_enterAt s _ _

theorem readCell_eq (named : Position.read cell = .ok p) : readCell cell = .ok p := by
  rw [readCell, named]

theorem Settled.remove_ok (h : s.Settled) (named : Position.read cell = .ok p) :
    ∃ updates, (s.remove cell).2 = .ok updates := by
  rw [Sheet.remove, readCell_eq named]
  exact (h.removeAt p).1

theorem Settled.copy_bare_ok (h : s.Settled) (named : Position.read target = .ok p)
    (other : Position.read source = .ok q) (bare : s.formula? q = none) :
    ∃ updates, (s.copy target source).2 = .ok updates := by
  rw [Sheet.copy, readCell_eq named]
  simp only [readCell_eq other, copyAt, bare]
  exact (h.removeAt p).1

end Sheet

namespace Session

open Sheet

/-! ## Commands -/

theorem atomic_replaced (s : Sheet) (pairs : List (String × String)) :
    Atomic s (replaced s pairs) := by
  unfold replaced
  split
  · exact fun _ _ => rfl
  · exact nofun

section
variable {σ : Type} [FileAccess (StateM σ)]

theorem run_loadFile (s : Sheet) (path : String) (store : σ) :
    (loadFile s path : StateM σ _).run store =
      match (DumpFile.read path : StateM σ _).run store with
      | (.error e, store) => ((s, .error (.ofDump e)), store)
      | (.ok pairs, store) => (replaced s pairs, store) := by
  rw [loadFile, StateT.run_bind]
  rcases (DumpFile.read path : StateM σ _).run store with ⟨e | pairs, store⟩ <;> rfl

theorem atomic_loadFile (s : Sheet) (path : String) (store : σ) :
    Atomic s ((loadFile s path : StateM σ _).run store).1 := by
  rw [run_loadFile]
  split
  · exact fun _ _ => rfl
  · exact atomic_replaced s _

theorem atomic_run (h : s.Settled) (command : Command) (store : σ) :
    Atomic s ((run s command : StateM σ Result).run store).1 := by
  cases command with
  | clear => exact nofun
  | copy target source => exact (h.atomic_copy target source).entered
  | delete cell => exact (h.atomic_remove cell).entered
  | dump => exact nofun
  | enter cell formula => exact (atomic_enter s cell formula).entered
  | load path => exact (atomic_loadFile s path store).map fun _ => none
  | save path => exact fun _ _ => rfl
  | query cell => exact nofun
  | help => exact nofun

/-! ## Lines -/

theorem run_runLine {line : String} {command : Command} (h : Command.parse line = .ok (some command))
    (store : σ) : ((runLine s line : StateM σ Reply).run store).1 =
      match ((run s command : StateM σ Result).run store).1 with
      | (t, .error e) => ⟨t, "", some e⟩
      | (t, .ok answer) => ⟨t, printed answer, none⟩ := by
  rw [runLine, h]
  simp only [StateT.run_bind]
  rcases (run s command : StateM σ Result).run store with ⟨⟨t, e | answer⟩, store⟩ <;> rfl

/-- A line that fails leaves the sheet as it was and prints nothing. -/
theorem runLine_error (h : s.Settled) (line : String) (store : σ) :
    let reply := ((runLine s line : StateM σ Reply).run store).1
    reply.error ≠ none → reply.sheet = s ∧ reply.output = "" := by
  intro reply failed
  cases parsed : Command.parse line with
  | error e =>
    have refused : reply = ⟨s, "", some (.usage e)⟩ := by simp only [reply, runLine, parsed]; rfl
    rw [refused]
    exact ⟨rfl, rfl⟩
  | ok command? =>
    cases command? with
    | none =>
      have empty : reply = ⟨s, "", none⟩ := by simp only [reply, runLine, parsed]; rfl
      rw [empty] at failed
      exact absurd rfl failed
    | some command =>
      have atomic := atomic_run h command store
      have replied : reply = _ := run_runLine parsed store
      rw [replied] at failed ⊢
      rcases ran : ((run s command : StateM σ Result).run store).1 with ⟨t, e | answer⟩
      · rw [ran] at atomic
        exact ⟨atomic e rfl, rfl⟩
      · rw [ran] at failed
        exact absurd rfl failed

/-- **Failure.** After every history, a line that fails leaves the sheet as it was and prints
nothing, whatever the files are. In particular a removal that names a cell never fails, neither as a
command of its own nor as the copy of a cell without a formula. -/
theorem runLine_error_edits (name : String) (operators : Op → List Float → Float)
    (es : List Edit) (store : σ) (line : String) :
    let s := (blank name operators).edits es
    let reply := ((runLine s line : StateM σ Reply).run store).1
    (reply.error ≠ none → reply.sheet = s ∧ reply.output = "") ∧
    (∀ cell p, Position.read cell = .ok p → ∃ updates, (s.remove cell).2 = .ok updates) ∧
    ∀ target source p q, Position.read target = .ok p → Position.read source = .ok q →
      s.formula? q = none → ∃ updates, (s.copy target source).2 = .ok updates := by
  intro s reply
  have settled : s.Settled := settled_edits name operators es
  exact ⟨runLine_error settled line store, fun cell p => settled.remove_ok,
    fun target source p q => settled.copy_bare_ok⟩

end

/-- A load of a missing file fails, and so does an assignment that is no formula. A cell whose
formula was removed is removed again and copied. -/
theorem runLine_load_missing :
    let s := (blank "sheet" Op.apply).edits [.enter "b1" "a1 + 1", .enter "a1" "2", .remove "a1"]
    let reply (line : String) := ((runLine s line : StateM FileStore Reply).run .empty).1
    (reply "load nowhere.json").error = some (.file .notFound) ∧
      (reply "load nowhere.json").sheet = s ∧
      (reply "c1 = 2 +").error = some (.entry (.badFormula (.unexpectedToken "<EOF>" .operand))) ∧
      (reply "c1 = 2 +").sheet = s ∧
      (∃ updates, (s.remove "a$1").2 = .ok updates) ∧
      s.formula? ⟨0, 0⟩ = none ∧ ∃ updates, (s.copy "b1" "a$1").2 = .ok updates := by
  intro s reply
  have missing : (reply "load nowhere.json").error = some (.file .notFound) := by
    decide +kernel
  have malformed : (reply "c1 = 2 +").error =
      some (.entry (.badFormula (.unexpectedToken "<EOF>" .operand))) := by
    decide +kernel
  have a1 : Position.read "a$1" = .ok ⟨0, 0⟩ := by decide +kernel
  have b1 : Position.read "b1" = .ok ⟨1, 0⟩ := by decide +kernel
  have bare : s.formula? ⟨0, 0⟩ = none := by
    have settled := settled_edits "sheet" Op.apply [.enter "b1" "a1 + 1", .enter "a1" "2"]
    exact ((settled.removeAt ⟨0, 0⟩).2.2 ⟨0, 0⟩).trans (if_pos rfl)
  have result (line : String) := runLine_error_edits "sheet" Op.apply
    [.enter "b1" "a1 + 1", .enter "a1" "2", .remove "a1"] FileStore.empty line
  obtain ⟨-, removes, copies⟩ := result ""
  exact ⟨missing, ((result _).1 (by rw [missing]; nofun)).1, malformed,
    ((result _).1 (by rw [malformed]; nofun)).1, removes _ _ a1, bare, copies _ _ _ _ b1 a1 bare⟩

end Session

end Worksheet
