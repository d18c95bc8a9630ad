import Mathlib.Data.List.Forall2
import Worksheet.Proofs.Files.Dump

/-!
# The format of dump files

A dump file holds a JSON list in the form that is easy to read: every pair and every text stands on
a line of its own, two blanks deeper for every level, and after the list the line ends. A list
without pairs is written without lines. In a text the quote, the backslash and the characters below
the blank are escaped, and nothing else is.

The format is stated for itself, as a relation between pairs and texts (`Written`). One text belongs
to some pairs, and it is the one that a dump file has.

Results:
* `Json.written_iff`: the text of a dump file is the one that the format asks for.
* `DumpFile.read_after_write`: what is in a dump file that was written, and what is read from it.
-/
namespace Worksheet

namespace Json

variable {c e : Char} {s : String} {cs : List Char} {pair : String × String}

/-! ## Texts -/

/-- The characters that have short escapes, with the letters of these. -/
def shortEscapes : List (Char × Char) :=
  [('"', '"'), ('\\', '\\'), ('\x08', 'b'), ('\x0c', 'f'), ('\n', 'n'), ('\r', 'r'), ('\t', 't')]

def hexDigits : List Char := "0123456789abcdef".toList

/-- How the format writes a character of a text. -/
inductive Escaped : Char → List Char → Prop
  | short {c e : Char} : (c, e) ∈ shortEscapes → Escaped c ['\\', e]
  | control {c high low : Char} : (∀ e, (c, e) ∉ shortEscapes) → c.toNat < 0x20 →
      hexDigits[c.toNat / 16]? = some high → hexDigits[c.toNat % 16]? = some low →
      Escaped c ['\\', 'u', '0', '0', high, low]
  | plain {c : Char} : (∀ e, (c, e) ∉ shortEscapes) → 0x20 ≤ c.toNat → Escaped c [c]

def Quoted (s : String) (cs : List Char) : Prop :=
  ∃ parts, List.Forall₂ Escaped s.toList parts ∧ cs = '"' :: (parts.flatten ++ ['"'])

theorem mem_shortEscapes : (c, e) ∈ shortEscapes ↔ shortEscape? c = some e := by
  unfold shortEscape?
  split <;> simp_all [shortEscapes, eq_comm]

theorem getElem?_hexDigits : ∀ n < 16, hexDigits[n]? = some (Nat.digitChar n) := by decide +kernel

theorem shortEscape?_eq_none (h : ∀ e, (c, e) ∉ shortEscapes) : shortEscape? c = none :=
  Option.eq_none_iff_forall_ne_some.mpr fun e short => h e (mem_shortEscapes.mpr short)

/-- The rules for characters exclude one another, and together they are those that are followed. -/
theorem escaped_iff : Escaped c cs ↔ cs = escape c := by
  constructor
  · intro escaped
    cases escaped with
    | short mem => rw [escape, mem_shortEscapes.mp mem]
    | control other control high low =>
      rw [getElem?_hexDigits _ (by omega)] at high low
      cases high
      cases low
      rw [escape, shortEscape?_eq_none other]
      exact (if_pos control).symm
    | plain other printable =>
      rw [escape, shortEscape?_eq_none other]
      exact (if_neg (Nat.not_lt.mpr printable)).symm
  · rintro rfl
    unfold escape
    split
    · next short => exact .short (mem_shortEscapes.mpr short)
    · next none =>
      have other : ∀ e, (c, e) ∉ shortEscapes := fun e mem => by
        rw [mem_shortEscapes, none] at mem
        cases mem
      split
      · next control =>
        exact .control other control (getElem?_hexDigits _ (by omega))
          (getElem?_hexDigits _ (by omega))
      · next printable => exact .plain other (Nat.not_lt.mp printable)

theorem forall₂_iff_eq_map {α β : Type} {R : α → β → Prop} (f : α → β)
    (h : ∀ {a b}, R a b ↔ b = f a) {as : List α} {bs : List β} :
    List.Forall₂ R as bs ↔ bs = as.map f := by
  have same : R = fun a b => f a = b := by
    funext a b
    exact propext (h.trans eq_comm)
  rw [same, ← List.forall₂_map_left_iff, List.forall₂_eq_eq_eq, eq_comm]

theorem quoted_iff : Quoted s cs ↔ cs = quote s := by
  have parts (parts : List (List Char)) :
      List.Forall₂ Escaped s.toList parts ↔ parts = s.toList.map escape :=
    forall₂_iff_eq_map escape escaped_iff
  simp only [Quoted, parts, exists_eq_left, quote, List.flatMap_def]

/-! ## Lists -/

/-- How the format writes a pair, on four lines. -/
def PairWritten (pair : String × String) (cs : List Char) : Prop :=
  ∃ first second, Quoted pair.1 first ∧ Quoted pair.2 second ∧
    cs = "[\n    ".toList ++ first ++ ",\n    ".toList ++ second ++ "\n  ]".toList

/-- How the format writes some pairs, with the end of the last line. -/
inductive Written : List (String × String) → List Char → Prop
  | none : Written [] "[]\n".toList
  | some {pair : String × String} {pairs : List (String × String)} {items : List (List Char)} :
      List.Forall₂ PairWritten (pair :: pairs) items →
      Written (pair :: pairs)
        ("[\n  ".toList ++ ",\n  ".toList.intercalate items ++ "\n]\n".toList)

def ofPair (pair : String × String) : Json := list [text pair.1, text pair.2]

theorem ofPairs_eq (pairs : List (String × String)) : ofPairs pairs = list (pairs.map ofPair) := rfl

theorem print_ofPair (pair : String × String) :
    print 1 (ofPair pair) = "[\n    ".toList ++ quote pair.1 ++ ",\n    ".toList ++
      quote pair.2 ++ "\n  ]".toList := by
  rw [ofPair, print_list]
  simp [enclose, print, newLine, List.replicate_succ]

theorem pairWritten_iff : PairWritten pair cs ↔ cs = print 1 (ofPair pair) := by
  simp only [PairWritten, quoted_iff, exists_and_left, exists_eq_left, print_ofPair]

theorem toList_textOf (pairs : List (String × String)) :
    (DumpFile.textOf pairs).toList =
      enclose '[' ']' 0 (pairs.map (print 1 ∘ ofPair)) ++ ['\n'] := by
  rw [DumpFile.textOf, String.toList_append, pretty, String.toList_ofList, ofPairs_eq, print_list,
    List.map_map]
  rfl

theorem enclose_lines {items : List (List Char)} (nonempty : items ≠ []) :
    enclose '[' ']' 0 items ++ ['\n'] =
      "[\n  ".toList ++ ",\n  ".toList.intercalate items ++ "\n]\n".toList := by
  cases items with
  | nil => exact absurd rfl nonempty
  | cons item items => simp [enclose, newLine, List.replicate_succ]

theorem written_iff {pairs : List (String × String)} :
    Written pairs cs ↔ cs = (DumpFile.textOf pairs).toList := by
  rw [toList_textOf]
  cases pairs with
  | nil =>
    constructor
    · rintro ⟨⟩
      rfl
    · rintro rfl
      exact .none
  | cons pair pairs =>
    have items (items : List (List Char)) : List.Forall₂ PairWritten (pair :: pairs) items ↔
        items = (pair :: pairs).map (print 1 ∘ ofPair) :=
      forall₂_iff_eq_map (print 1 ∘ ofPair) pairWritten_iff
    -- A list that is not empty leaves no choice but the texts of its pairs.
    rw [enclose_lines (by simp)]
    constructor
    · intro written
      cases written with
      | some written => rw [(items _).mp written, List.map_cons]
    · rintro rfl
      exact .some ((items _).mpr rfl)

end Json

namespace DumpFile

variable {path : String} {pairs : List (String × String)} {store written later : FileStore}

/-! ## Sizes -/

/-- A pair whose second text is a row of ones. -/
def ones (n : Nat) : List (String × String) := [("a1", String.ofList (List.replicate n '1'))]

theorem textOf_ones (n : Nat) : textOf (ones n) =
    "[\n  [\n    \"a1\",\n    \"" ++ String.ofList (List.replicate n '1') ++ "\"\n  ]\n]\n" := by
  have plain : (List.replicate n '1').flatMap Json.escape = List.replicate n '1' := by
    induction n with
    | zero => rfl
    | succ n ih => rw [List.replicate_succ, List.flatMap_cons, ih]; rfl
  have quoted : Json.quote (String.ofList (List.replicate n '1')) =
      '"' :: (List.replicate n '1' ++ ['"']) := by
    rw [Json.quote, String.toList_ofList, plain]
  refine String.toList_injective ?_
  rw [Json.toList_textOf, ones, List.map_singleton, Json.enclose_lines (List.cons_ne_nil _ _),
    List.intercalate_singleton, Function.comp_apply, Json.print_ofPair, quoted]
  simp [Json.quote, Json.escape, Json.shortEscape?]

theorem utf8ByteSize_ones (n : Nat) : (String.ofList (List.replicate n '1')).utf8ByteSize = n := by
  induction n with
  | zero => rfl
  | succ n ih =>
    rw [List.replicate_succ, String.ofList_cons, String.utf8ByteSize_append, ih,
      String.utf8ByteSize_singleton, Nat.add_comm]
    rfl

theorem size_ones (n : Nat) : (textOf (ones n)).utf8ByteSize = n + 29 := by
  rw [textOf_ones, String.utf8ByteSize_append, String.utf8ByteSize_append, utf8ByteSize_ones]
  have before : "[\n  [\n    \"a1\",\n    \"".utf8ByteSize = 21 := by decide +kernel
  have after : "\"\n  ]\n]\n".utf8ByteSize = 8 := by decide +kernel
  omega

/-! ## Written files -/

/-- **Dump files.** After pairs were written to a file, whatever characters their texts have, the
file holds the one text that the format asks for. As long as it is not touched, exactly these pairs
are read from it if it has at most 16777216 bytes, and otherwise it is refused for its size. -/
theorem read_after_write
    (h : (DumpFile.write path pairs : StateM FileStore _).run store = (.ok (), written))
    (untouched : later.read path = written.read path) :
    let text := textOf pairs
    (∀ cs, Json.Written pairs cs ↔ cs = text.toList) ∧ written.read path = .ok text.toUTF8 ∧
      (text.utf8ByteSize ≤ 16777216 →
        (DumpFile.read path : StateM FileStore _).run later = (.ok pairs, later)) ∧
      (16777216 < text.utf8ByteSize →
        (DumpFile.read path : StateM FileStore _).run later =
          (.error (.file (.tooLarge path text.utf8ByteSize 16777216)), later)) := by
  intro text
  have read := read_of_write h untouched
  refine ⟨fun cs => Json.written_iff, ?_, fun fits : (textOf pairs).utf8ByteSize ≤ maxSize => ?_,
    fun large : maxSize < (textOf pairs).utf8ByteSize => ?_⟩
  · exact FileStore.read_of_write (write_of_run_write h)
  · rw [read, readBack, if_neg (Nat.not_lt.mpr fits)]
  · rw [read, readBack, if_pos large]
    rfl

/-- Two pairs with an empty text, quotes, backslashes, control characters and characters beyond the
first plane. -/
def awkward : List (String × String) :=
  [("a1", "\"\\\x00\x1f\x7f\t\r\n/é"), ("", "\u2028😀\x08\x0c")]

/-- Awkward pairs are read back, and so is a file that has as many bytes as are read. A file that
has one more is refused. -/
theorem read_after_write_awkward :
    (∃ written, (DumpFile.write "dump.json" awkward : StateM FileStore _).run .empty =
        (.ok (), written) ∧ (textOf awkward).utf8ByteSize ≤ 16777216 ∧
      (DumpFile.read "dump.json" : StateM FileStore _).run written = (.ok awkward, written)) ∧
    (∃ written, (DumpFile.write "dump.json" (ones 16777187) : StateM FileStore _).run .empty =
        (.ok (), written) ∧ (textOf (ones 16777187)).utf8ByteSize = 16777216 ∧
      (DumpFile.read "dump.json" : StateM FileStore _).run written =
        (.ok (ones 16777187), written)) ∧
    ∃ written, (DumpFile.write "dump.json" (ones 16777188) : StateM FileStore _).run .empty =
        (.ok (), written) ∧ (textOf (ones 16777188)).utf8ByteSize = 16777217 ∧
      (DumpFile.read "dump.json" : StateM FileStore _).run written =
        (.error (.file (.tooLarge "dump.json" 16777217 16777216)), written) := by
  obtain ⟨first, wrote⟩ := exists_write_empty awkward
  obtain ⟨second, filled⟩ := exists_write_empty (ones 16777187)
  obtain ⟨third, exceeded⟩ := exists_write_empty (ones 16777188)
  have small : (textOf awkward).utf8ByteSize ≤ 16777216 := by decide +kernel
  have full : (textOf (ones 16777187)).utf8ByteSize = 16777216 := size_ones 16777187
  have large : (textOf (ones 16777188)).utf8ByteSize = 16777217 := size_ones 16777188
  refine ⟨⟨first, wrote, small, (read_after_write wrote rfl).2.2.1 small⟩,
    ⟨second, filled, full, (read_after_write filled rfl).2.2.1 (Nat.le_of_eq full)⟩,
    ⟨third, exceeded, large, ?_⟩⟩
  have refused := (read_after_write exceeded rfl).2.2.2 (by rw [large]; decide)
  rwa [large] at refused

end DumpFile

end Worksheet
