/-!
# Reading pairs

The JSON texts that are a list of lists of two texts, and nothing else, are read as lists of pairs.

Results:
* `length_escape?_lt`, `length_readText_lt`: reading an escape or a text takes characters off.
-/
namespace Worksheet.Json

inductive Piece where
  | opening
  | closing
  | comma
  | text (s : String)
  deriving DecidableEq, Repr

/-! ## Texts -/

def hexValue? (c : Char) : Option Nat :=
  if c.isDigit then some (c.toNat - '0'.toNat)
  else if 'a' ≤ c ∧ c ≤ 'f' then some (c.toNat - 'a'.toNat + 10)
  else if 'A' ≤ c ∧ c ≤ 'F' then some (c.toNat - 'A'.toNat + 10)
  else none

def takeHex? : List Char → Option (Nat × List Char)
  | a :: b :: c :: d :: rest =>
    match hexValue? a, hexValue? b, hexValue? c, hexValue? d with
    | some a, some b, some c, some d => some (((a * 16 + b) * 16 + c) * 16 + d, rest)
    | _, _, _, _ => none
  | _ => none

/-- Whether a number is the first half of a pair of surrogates. -/
def isHigh (code : Nat) : Bool := 0xD800 ≤ code && code < 0xDC00

/-- Whether a number is the second half of a pair of surrogates. -/
def isLow (code : Nat) : Bool := 0xDC00 ≤ code && code < 0xE000

/-- The second half of a pair of surrogates, written as an escape of its own. -/
def takeLow? : List Char → Option (Nat × List Char)
  | slash :: letter :: rest =>
    if slash = '\\' ∧ letter = 'u' then
      match takeHex? rest with
      | some (low, rest) => if isLow low then some (low - 0xDC00, rest) else none
      | none => none
    else none
  | _ => none

/-- The character of a hexadecimal escape. A surrogate needs its partner. -/
def takeUnicode? (cs : List Char) : Option (Char × List Char) :=
  match takeHex? cs with
  | none => none
  | some (code, rest) =>
    if isHigh code then
      match takeLow? rest with
      | none => none
      | some (low, rest) => some (Char.ofNat (0x10000 + (code - 0xD800) * 0x400 + low), rest)
    else if isLow code then none
    else some (Char.ofNat code, rest)

def shortEscaped? : Char → Option Char
  | '"' => some '"'
  | '\\' => some '\\'
  | '/' => some '/'
  | 'b' => some '\x08'
  | 'f' => some '\x0c'
  | 'n' => some '\n'
  | 'r' => some '\r'
  | 't' => some '\t'
  | _ => none

/-- The character of an escape, and the text after it. -/
def escape? : List Char → Option (Char × List Char)
  | [] => none
  | c :: cs => if c = 'u' then takeUnicode? cs else (shortEscaped? c).map fun e => (e, cs)

theorem length_takeHex?_lt {cs rest : List Char} {n : Nat} (h : takeHex? cs = some (n, rest)) :
    rest.length < cs.length := by
  unfold takeHex? at h
  split at h
  · split at h
    · cases h; simp only [List.length_cons]; omega
    · cases h
  · cases h

theorem length_takeLow?_lt {cs rest : List Char} {n : Nat} (h : takeLow? cs = some (n, rest)) :
    rest.length < cs.length := by
  match cs with
  | [] | [_] => cases h
  | slash :: letter :: tail =>
    simp only [takeLow?] at h
    split at h
    · split at h
      · next taken =>
        split at h
        · simp only [Option.some.injEq, Prod.mk.injEq] at h
          have := length_takeHex?_lt taken
          rw [← h.2]; simp only [List.length_cons]; omega
        · cases h
      · cases h
    · cases h

theorem length_takeUnicode?_lt {cs rest : List Char} {c : Char}
    (h : takeUnicode? cs = some (c, rest)) : rest.length < cs.length := by
  unfold takeUnicode? at h
  split at h
  · cases h
  · next taken =>
    have := length_takeHex?_lt taken
    split at h
    · split at h
      · cases h
      · next low => cases h; have := length_takeLow?_lt low; omega
    · split at h
      · cases h
      · cases h; exact this

theorem length_escape?_lt {cs rest : List Char} {c : Char} (h : escape? cs = some (c, rest)) :
    rest.length < cs.length := by
  cases cs with
  | nil => cases h
  | cons e cs =>
    simp only [escape?] at h
    split at h
    · have := length_takeUnicode?_lt h; simp only [List.length_cons]; omega
    · obtain ⟨_, _, same⟩ := Option.map_eq_some_iff.mp h
      cases same; simp

/-- The rest of a text after its opening quote, of which `done` has been read, newest first, and
what follows the closing quote. -/
def readText (done : List Char) : List Char → Option (List Char × List Char)
  | [] => none
  | c :: cs =>
    if c = '"' then some (done.reverse, cs)
    else if c = '\\' then
      match _found : escape? cs with
      | none => none
      | some (e, rest) => readText (e :: done) rest
    else if c.toNat < 0x20 then none
    else readText (c :: done) cs
termination_by cs => cs.length
decreasing_by
  · have := length_escape?_lt ‹_›; simp only [List.length_cons]; omega
  · simp

theorem length_readText_lt {done cs text rest : List Char}
    (h : readText done cs = some (text, rest)) : rest.length < cs.length := by
  fun_induction readText done cs with
  | case1 => cases h
  | case2 => cases h; simp
  | case3 => cases h
  | case4 _ _ _ _ found _ ih =>
    have := length_escape?_lt found
    have := ih h
    simp only [List.length_cons]; omega
  | case5 => cases h
  | case6 _ _ _ _ _ _ ih => have := ih h; simp only [List.length_cons]; omega

/-! ## Pieces -/

def isSpace (c : Char) : Bool := c = ' ' || c = '\t' || c = '\n' || c = '\r'

/-- The pieces `done`, newest first, and those of the rest of a text. -/
def piecesFrom (done : List Piece) : List Char → Option (List Piece)
  | [] => some done.reverse
  | c :: cs =>
    if isSpace c then piecesFrom done cs
    else if c = '[' then piecesFrom (.opening :: done) cs
    else if c = ']' then piecesFrom (.closing :: done) cs
    else if c = ',' then piecesFrom (.comma :: done) cs
    else if c = '"' then
      match _found : readText [] cs with
      | none => none
      | some (text, rest) => piecesFrom (.text (String.ofList text) :: done) rest
    else none
termination_by cs => cs.length
decreasing_by
  · simp
  · simp
  · simp
  · simp
  · have := length_readText_lt ‹_›; simp only [List.length_cons]; omega

/-! ## Pairs -/

/-- The pairs `done`, newest first, and those that the rest of a list begins with. -/
def pairsFrom (done : List (String × String)) : List Piece → Option (List (String × String))
  | .opening :: .text a :: .comma :: .text b :: .closing :: .comma :: rest =>
    pairsFrom ((a, b) :: done) rest
  | [.opening, .text a, .comma, .text b, .closing, .closing] => some ((a, b) :: done).reverse
  | _ => none

def pairsOf : List Piece → Option (List (String × String))
  | [.opening, .closing] => some []
  | .opening :: rest => pairsFrom [] rest
  | _ => none

/-- The pairs that a text is, if it is a list of lists of two texts. -/
def readPairs (text : String) : Option (List (String × String)) :=
  (piecesFrom [] text.toList).bind pairsOf

end Worksheet.Json
