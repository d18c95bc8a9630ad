import Worksheet.Proofs.Files.Dump
import Worksheet.Proofs.Sheet.Replay
import Worksheet.Proofs.Shell.Failure

/-!
# Saving and loading

What is saved is loaded again, into any session, as long as the file is not touched: the session
then answers every question as the one that saved. The one exception are files that are too large.
Saving makes them all the same, and loading refuses them and keeps the sheet that is there. Formulas
may be as long as one likes, so there are such files even of a single cell.

Results:
* `Session.run_loadFile_of_saveFile`: what loading a saved file leaves.
* `Session.load_save_edits`: a saved sheet is loaded unless its file is too large.
* `Session.load_refuses_saved`: a file that is too large is saved.
-/
namespace Worksheet.Session

open Sheet

variable {s t : Sheet} {path : String} {store written later : FileStore}

theorem run_write_of_saveFile
    (h : (saveFile s path : StateM FileStore _).run store = (.ok (), written)) :
    (DumpFile.write path s.dumpPairs : StateM FileStore _).run store = (.ok (), written) := by
  rw [saveFile, StateT.run_bind] at h
  rcases ran : (DumpFile.write path s.dumpPairs : StateM FileStore _).run store with
    ⟨e | ⟨⟩, store⟩
  · rw [ran] at h; cases h
  · rw [ran] at h; cases h; rfl

/-- Loading a saved file that was not touched leaves what its dump makes, or nothing new if the file
is refused. -/
theorem run_loadFile_of_saveFile (t : Sheet)
    (h : (saveFile s path : StateM FileStore _).run store = (.ok (), written))
    (untouched : later.read path = written.read path) :
    (loadFile t path : StateM FileStore _).run later =
      (match DumpFile.readBack path s.dumpPairs with
        | .error e => (t, .error (.ofDump e))
        | .ok pairs => replaced t pairs, later) := by
  rw [run_loadFile, DumpFile.read_of_write (run_write_of_saveFile h) untouched]
  cases DumpFile.readBack path s.dumpPairs <;> rfl

theorem replaced_of_load {pairs : List (String × String)} (ok : (t.clear.load pairs).2 = .ok ()) :
    replaced t pairs = ((t.clear.load pairs).1, .ok ()) := by
  unfold replaced
  rcases loaded : t.clear.load pairs with ⟨u, e | ⟨⟩⟩
  · rw [loaded] at ok; cases ok
  · rfl

/-! ## Sheets of one formula -/

section
variable {ds : List Char}

theorem exists_parse_digits (base : Position) (nonempty : ds ≠ [])
    (digits : ∀ c ∈ ds, c.isDigit = true) :
    ∃ x, Expr.parse base (String.ofList ds) = .ok (.number x) := by
  let n : Decimal.Numeral := ⟨ds, [], none⟩
  have whole : (Lexeme.numeral n).Whole := ⟨nonempty, digits, nofun, nofun⟩
  have text : (Lexeme.numeral n).text = ds := by
    simp [Lexeme.text, Decimal.Numeral.text, Decimal.fractionText, n]
  have spells : Lexeme.Spells (String.ofList ds).toList [.numeral n] := by
    have := Lexeme.Spells.lexeme whole (.inr stops_nil) .nil
    rwa [List.append_nil, text, ← String.toList_ofList (l := ds)] at this
  refine ⟨n.value.toFloat, Expr.parse_eq_ok_iff.mpr ⟨_, Lexeme.scan_of_spells spells rfl,
    .single (.single (.number rfl)), Nat.le_add_left 1 255⟩⟩

/-- A sheet whose only formula is a text of digits. -/
theorem exists_formula?_enter_digits (name : String) (operators : Op → List Float → Float)
    (nonempty : ds ≠ []) (digits : ∀ c ∈ ds, c.isDigit = true) :
    ∃ tree, ∀ q, ((blank name operators).edits [.enter "a1" (String.ofList ds)]).formula? q =
      if (⟨0, 0⟩ : Position) = q then some ⟨String.ofList ds, tree⟩ else none := by
  obtain ⟨x, parsed⟩ := exists_parse_digits ⟨0, 0⟩ nonempty digits
  have free : (blank name operators).clash? ⟨0, 0⟩ (.number x) = none :=
    clash?_eq_none_iff.mpr nofun
  have named : Position.read "a1" = .ok ⟨0, 0⟩ := by decide +kernel
  have strip : Text.strip (String.ofList ds) = String.ofList ds := by
    rw [Text.strip, String.toList_ofList, Text.stripChars_eq_self fun c hc =>
      isBlank_of_isWordChar (isWordChar_of_isDigit (digits c hc))]
  refine ⟨.number x, fun q => ?_⟩
  show ((blank name operators).enter "a1" (String.ofList ds)).1.formula? q = _
  rw [enter_of_read named, enterAt_eq parsed free, strip]
  refine (formula?_evaluateEach.trans formula?_place).trans ?_
  rw [formula?, cell_blank]
  rfl

theorem exists_saveFile_empty (s : Sheet) :
    ∃ written, (saveFile s "dump.json" : StateM FileStore _).run .empty = (.ok (), written) := by
  obtain ⟨written, done⟩ := DumpFile.exists_write_empty s.dumpPairs
  rw [saveFile, StateT.run_bind, done]
  exact ⟨written, rfl⟩

end

/-! ## Saved sheets -/

/-- **Saving and loading.** After every history, a sheet that was saved is loaded from the untouched
file into any session, which then knows the same of every cell and has the same dump, provided that
the file is not too large. If it is, it is refused, and the session keeps its sheet. -/
theorem load_save_edits (name : String) (operators : Op → List Float → Float) (es : List Edit)
    (path : String) (store written later : FileStore) (t : Sheet) (alike : t.operators = operators)
    (saved : (saveFile ((blank name operators).edits es) path : StateM FileStore _).run store =
      (.ok (), written))
    (untouched : later.read path = written.read path) :
    let s := (blank name operators).edits es
    let size := (DumpFile.textOf s.dumpPairs).utf8ByteSize
    (size ≤ DumpFile.maxSize →
      ∃ loaded, (loadFile t path : StateM FileStore _).run later = ((loaded, .ok ()), later) ∧
        (∀ id, loaded.query id = s.query id) ∧ loaded.dumpPairs = s.dumpPairs) ∧
    (DumpFile.maxSize < size →
      (loadFile t path : StateM FileStore _).run later =
        ((t, .error (.file (.tooLarge path size DumpFile.maxSize))), later)) := by
  intro s size
  have settled : s.Settled := settled_edits name operators es
  have part : s.PartOf t.clear := by
    have := partOf_blank s t.name
    rwa [show s.operators = t.operators from (operators_edits _ es).trans alike.symm] at this
  rw [run_loadFile_of_saveFile t saved untouched, DumpFile.readBack]
  constructor
  · intro fits
    obtain ⟨ok, cells, dump⟩ := part.load_dumpPairs settled
    rw [if_neg (Nat.not_lt.mpr fits)]
    refine ⟨(t.clear.load s.dumpPairs).1, ?_, query_congr cells, ?_⟩
    · exact congrArg (·, later) (replaced_of_load ok)
    · rw [dumpPairs, dump, dumpPairs]
  · intro large
    rw [if_pos large]
    rfl

/-- A sheet of one formula is loaded into a session in which other cells have formulas. -/
theorem load_save_twelve :
    let s := (blank "sheet" Op.apply).edits [.enter "a1" "12"]
    let t := (blank "other" Op.apply).edits eventful
    let size := (DumpFile.textOf s.dumpPairs).utf8ByteSize
    ∃ written, t.operators = Op.apply ∧
      (saveFile s "dump.json" : StateM FileStore _).run .empty = (.ok (), written) ∧
      size ≤ DumpFile.maxSize ∧ ∃ loaded,
        (loadFile t "dump.json" : StateM FileStore _).run written = ((loaded, .ok ()), written) ∧
          (∀ id, loaded.query id = s.query id) ∧ loaded.dumpPairs = s.dumpPairs := by
  intro s t size
  have digits : ∀ c ∈ ['1', '2'], c.isDigit = true :=
    List.forall_mem_cons.mpr ⟨rfl, List.forall_mem_singleton.mpr rfl⟩
  obtain ⟨tree, only⟩ := exists_formula?_enter_digits "sheet" Op.apply (List.cons_ne_nil _ _) digits
  have pairs : s.dumpPairs = [((⟨0, 0⟩ : Position).name, "12")] := dumpPairs_eq_singleton only
  have small : size ≤ DumpFile.maxSize := by
    simp only [size, pairs]
    decide +kernel
  have alike : t.operators = Op.apply := operators_edits _ eventful
  obtain ⟨written, saved⟩ := exists_saveFile_empty s
  exact ⟨written, alike, saved, small, (load_save_edits "sheet" Op.apply [.enter "a1" "12"]
    "dump.json" .empty written written t alike saved rfl).1 small⟩

/-- A sheet whose only formula has as many digits as a file may have bytes is saved, but the file is
too large to be loaded. -/
theorem load_refuses_long {ds : List Char} (digits : ∀ c ∈ ds, c.isDigit = true)
    (long : DumpFile.maxSize ≤ ds.length) :
    let s := (blank "sheet" Op.apply).edits [.enter "a1" (String.ofList ds)]
    ∃ written size, (saveFile s "dump.json" : StateM FileStore _).run .empty = (.ok (), written) ∧
      DumpFile.maxSize < size ∧ (loadFile s "dump.json" : StateM FileStore _).run written =
        ((s, .error (.file (.tooLarge "dump.json" size DumpFile.maxSize))), written) := by
  intro s
  have nonempty : ds ≠ [] := List.ne_nil_of_length_pos (Nat.lt_of_lt_of_le (by decide) long)
  obtain ⟨tree, only⟩ := exists_formula?_enter_digits "sheet" Op.apply nonempty digits
  have pairs : s.dumpPairs = [((⟨0, 0⟩ : Position).name, String.ofList ds)] :=
    dumpPairs_eq_singleton only
  have large : DumpFile.maxSize < (DumpFile.textOf s.dumpPairs).utf8ByteSize := by
    have more := DumpFile.length_lt_size_textOf (⟨0, 0⟩ : Position).name (String.ofList ds)
    rw [← pairs, String.length_ofList] at more
    exact Nat.lt_of_le_of_lt long more
  obtain ⟨written, saved⟩ := exists_saveFile_empty s
  refine ⟨written, _, saved, large, ?_⟩
  rw [run_loadFile_of_saveFile s saved rfl, DumpFile.readBack, if_pos large]
  rfl

/-- Such a formula can be entered: a numeral of that many digits. -/
theorem load_refuses_saved :
    let s := (blank "sheet" Op.apply).edits
      [.enter "a1" (String.ofList (List.replicate DumpFile.maxSize '1'))]
    ∃ written size, (saveFile s "dump.json" : StateM FileStore _).run .empty = (.ok (), written) ∧
      DumpFile.maxSize < size ∧ (loadFile s "dump.json" : StateM FileStore _).run written =
        ((s, .error (.file (.tooLarge "dump.json" size DumpFile.maxSize))), written) := by
  refine load_refuses_long (fun c hc => ?_) (Nat.le_of_eq List.length_replicate.symm)
  rw [List.eq_of_mem_replicate hc]
  rfl

end Worksheet.Session
