import Mathlib.Data.List.Basic
import Worksheet.Json.Pairs
import Worksheet.Json.Value

/-!
# Reading what is written

A character that is written by its escape is read again, whatever the text goes on with, and so is a
text in its quotes. A stretch of written text stands for pieces if these are read off it whatever
stands before and after it (`Spelled`); brackets, commas, quoted texts and new lines do, and such
stretches may be put together.

Results:
* `readText_escape`: a character that is written is read.
* `readPairs_ofPairs`: pairs that are written are read.
-/
namespace Worksheet.Json

variable {cs ds rest done : List Char} {c : Char} {ps qs : List Piece}

/-! ## Texts -/

theorem hexValue?_digitChar : ∀ n < 16, hexValue? (Nat.digitChar n) = some n := by decide

theorem shortEscaped?_of_shortEscape? {short : Char} (h : shortEscape? c = some short) :
    short ≠ 'u' ∧ shortEscaped? short = some c := by
  unfold shortEscape? at h
  split at h <;> cases h <;> exact ⟨by decide, rfl⟩

theorem takeUnicode?_digits (h : c.toNat < 0x20) (rest : List Char) :
    takeUnicode? ('0' :: '0' :: Nat.digitChar (c.toNat / 16) :: Nat.digitChar (c.toNat % 16) ::
      rest) = some (c, rest) := by
  have zero : hexValue? '0' = some 0 := rfl
  have high := hexValue?_digitChar (c.toNat / 16) (by omega)
  have low := hexValue?_digitChar (c.toNat % 16) (by omega)
  have code : ((0 * 16 + 0) * 16 + c.toNat / 16) * 16 + c.toNat % 16 = c.toNat := by omega
  have notHigh : isHigh c.toNat = false := by simp only [isHigh]; grind
  have notLow : isLow c.toNat = false := by simp only [isLow]; grind
  simp only [takeUnicode?, takeHex?, zero, high, low, code, notHigh, notLow, Char.ofNat_toNat,
    Bool.false_eq_true, if_false]

theorem readText_escaped {e : Char} (h : escape? cs = some (e, rest)) :
    readText done ('\\' :: cs) = readText (e :: done) rest := by
  rw [readText, if_neg (by decide), if_pos rfl]
  split
  · next none => rw [none] at h; cases h
  · next found => rw [found] at h; cases h; rfl

theorem readText_escape (c : Char) (done rest : List Char) :
    readText done (escape c ++ rest) = readText (c :: done) rest := by
  unfold escape
  split
  · next short found =>
    obtain ⟨notHex, back⟩ := shortEscaped?_of_shortEscape? found
    refine readText_escaped ?_
    show escape? (short :: rest) = some (c, rest)
    rw [escape?, if_neg notHex, back]
    rfl
  · next none =>
    split
    · next control =>
      refine readText_escaped ?_
      exact takeUnicode?_digits control rest
    · next printable =>
      have notQuote : c ≠ '"' := fun same => by subst same; cases none
      have notSlash : c ≠ '\\' := fun same => by subst same; cases none
      rw [List.cons_append, List.nil_append, readText, if_neg notQuote, if_neg notSlash,
        if_neg printable]

theorem readText_quote (s done rest : List Char) :
    readText done (s.flatMap escape ++ '"' :: rest) = some (done.reverse ++ s, rest) := by
  induction s generalizing done with
  | nil => simp [readText]
  | cons c s ih =>
    rw [List.flatMap_cons, List.append_assoc, readText_escape, ih, List.reverse_cons,
      List.append_assoc]
    rfl

theorem length_le_flatMap_escape (cs : List Char) : cs.length ≤ (cs.flatMap escape).length := by
  induction cs with
  | nil => exact Nat.zero_le _
  | cons c cs ih =>
    have pos : 0 < (escape c).length := by
      unfold escape
      split
      · exact Nat.zero_lt_succ 1
      · split <;> exact Nat.zero_lt_succ _
    rw [List.flatMap_cons, List.length_append, List.length_cons]
    omega

/-! ## Pieces -/

/-- The characters stand for the pieces, whatever comes before and after them. -/
def Spelled (cs : List Char) (ps : List Piece) : Prop :=
  ∀ done rest, piecesFrom done (cs ++ rest) = piecesFrom (ps.reverse ++ done) rest

theorem Spelled.append (h : Spelled cs ps) (h' : Spelled ds qs) : Spelled (cs ++ ds) (ps ++ qs) := by
  intro done rest
  rw [List.append_assoc, h, h', List.reverse_append, List.append_assoc]

theorem spelled_opening : Spelled ['['] [.opening] := by
  intro done rest
  rw [List.cons_append, piecesFrom]
  rfl

theorem spelled_closing : Spelled [']'] [.closing] := by
  intro done rest
  rw [List.cons_append, piecesFrom]
  rfl

theorem spelled_comma : Spelled [','] [.comma] := by
  intro done rest
  rw [List.cons_append, piecesFrom]
  rfl

theorem spelled_spaces (h : ∀ c ∈ cs, isSpace c = true) : Spelled cs [] := by
  intro done rest
  induction cs with
  | nil => rfl
  | cons c cs ih =>
    obtain ⟨space, spaces⟩ := List.forall_mem_cons.mp h
    rw [List.cons_append, piecesFrom, if_pos space, ih spaces]

theorem spelled_newLine (depth : Nat) : Spelled (newLine depth) [] := by
  refine spelled_spaces fun c hc => ?_
  rcases List.mem_cons.mp hc with rfl | hc
  · rfl
  · rw [List.eq_of_mem_replicate hc]
    rfl

theorem spelled_quote (s : String) : Spelled (quote s) [.text s] := by
  intro done rest
  have text : readText [] (s.toList.flatMap escape ++ '"' :: rest) = some (s.toList, rest) :=
    readText_quote s.toList [] rest
  have opened : quote s ++ rest = '"' :: (s.toList.flatMap escape ++ '"' :: rest) := by
    simp [quote]
  rw [opened, piecesFrom, if_neg (by decide), if_neg (by decide), if_neg (by decide),
    if_neg (by decide), if_pos rfl]
  split
  · next none => rw [none] at text; cases text
  · next found =>
    rw [found] at text
    cases text
    rw [String.ofList_toList]
    rfl

section
variable {α : Type} {text : α → List Char} {pieces : α → List Piece}

theorem Spelled.intercalate (separated : Spelled cs ps) (spelled : ∀ a, Spelled (text a) (pieces a)) :
    ∀ items : List α, Spelled (cs.intercalate (items.map text)) (ps.intercalate (items.map pieces))
  | [] => spelled_spaces nofun
  | [a] => by
    simpa only [List.map_cons, List.map_nil, List.intercalate_singleton] using spelled a
  | a :: b :: items => by
    simp only [List.map_cons, List.intercalate_cons_cons]
    exact ((spelled a).append separated).append (Spelled.intercalate separated spelled (b :: items))

def listPieces (items : List (List Piece)) : List Piece :=
  .opening :: ([.comma].intercalate items ++ [.closing])

theorem spelled_list (depth : Nat) (spelled : ∀ a, Spelled (text a) (pieces a)) (items : List α) :
    Spelled (enclose '[' ']' depth (items.map text)) (listPieces (items.map pieces)) := by
  unfold enclose
  split
  · next none =>
    rw [List.map_eq_nil_iff.mp none]
    exact spelled_opening.append spelled_closing
  · have separator := spelled_comma.append (spelled_newLine (depth + 1))
    have inner := separator.intercalate spelled items
    exact spelled_opening.append ((spelled_newLine (depth + 1)).append
      (inner.append ((spelled_newLine depth).append spelled_closing)))

end

/-! ## Pairs -/

theorem print_list (depth : Nat) (items : List Json) :
    print depth (list items) = enclose '[' ']' depth (items.map (print (depth + 1))) := by
  have each : ∀ items : List Json, printItems (depth + 1) items = items.map (print (depth + 1)) := by
    intro items
    induction items with
    | nil => rfl
    | cons item items ih => rw [printItems, ih, List.map_cons]
  rw [print, each]

def pairPieces (pair : String × String) : List Piece := listPieces [[.text pair.1], [.text pair.2]]

theorem spelled_ofPairs (pairs : List (String × String)) :
    Spelled (print 0 (ofPairs pairs)) (listPieces (pairs.map pairPieces)) := by
  rw [ofPairs, print_list, List.map_map]
  refine spelled_list 0 (fun pair => ?_) pairs
  rw [Function.comp_apply, print_list]
  exact spelled_list 1 spelled_quote [pair.1, pair.2]

theorem pairsFrom_pieces (done pairs : List (String × String)) (pair : String × String) :
    pairsFrom done ([.comma].intercalate ((pair :: pairs).map pairPieces) ++ [.closing]) =
      some (done.reverse ++ pair :: pairs) := by
  induction pairs generalizing done pair with
  | nil =>
    rw [List.map_cons, List.map_nil, List.intercalate_singleton]
    exact congrArg some List.reverse_cons
  | cons next pairs ih =>
    rw [List.map_cons, List.map_cons, List.intercalate_cons_cons, ← List.map_cons]
    have := ih (pair :: done) next
    rw [List.reverse_cons, List.append_assoc] at this
    exact this

theorem pairsOf_pieces (pairs : List (String × String)) :
    pairsOf (listPieces (pairs.map pairPieces)) = some pairs := by
  cases pairs with
  | nil => rfl
  | cons pair pairs =>
    -- Only a list with no pairs begins with the piece that ends it.
    have read := pairsFrom_pieces [] pairs pair
    cases pairs with
    | nil => exact read
    | cons next pairs => exact read

/-- **Pairs.** Pairs that are written are read, whatever characters their texts have. -/
theorem readPairs_ofPairs (pairs : List (String × String)) :
    readPairs ((ofPairs pairs).pretty ++ "\n") = some pairs := by
  have spelled := (spelled_ofPairs pairs).append (spelled_newLine 0)
  have pieces := spelled [] []
  rw [List.append_nil, List.append_nil, List.append_nil, piecesFrom, List.reverse_reverse] at pieces
  have chars : ((ofPairs pairs).pretty ++ "\n").toList = print 0 (ofPairs pairs) ++ newLine 0 := by
    rw [String.toList_append, pretty, String.toList_ofList]
    rfl
  rw [readPairs, chars, pieces]
  exact pairsOf_pieces pairs

end Worksheet.Json
