import Worksheet.Json.Pairs

/-!
# Tokens of a settings file

A settings file is a row of lines `key = value`, in the TOML format. Settings are texts, so the
tokens are those of keys and texts alone; a file in which anything else stands has no tokens, or
none that settings can be made of.

A text stands between quotes, with escapes, or between apostrophes, without them; between three of
either it may go over several lines.
-/
namespace Worksheet.Settings

inductive Token where
  | lineEnd
  | equals
  /-- A key without quotes. -/
  | bare (s : String)
  /-- A text on one line, which may be a key. -/
  | quoted (s : String)
  /-- A text that may go over several lines. -/
  | block (s : String)
  deriving DecidableEq, Repr

/-! ## Characters -/

/-- The blanks within a line. -/
def isSpace (c : Char) : Bool := c = ' ' || c = '\t'

/-- The characters that may stand in a comment: all but control characters, and the tab. -/
def isPlain (c : Char) : Bool := c = '\t' || (0x20 ≤ c.toNat && c.toNat ≠ 0x7F)

def isBare (c : Char) : Bool := c.isAlphanum || c = '-' || c = '_'

/-- The text after the line end that a text begins with, if it begins with one. -/
def afterLineEnd? : List Char → Option (List Char)
  | [] => none
  | c :: cs =>
    if c = '\n' then some cs
    else if c = '\r' then
      match cs with
      | [] => none
      | d :: cs => if d = '\n' then some cs else none
    else none

/-! ## Escapes -/

/-- The number of `count` hexadecimal digits after those that make `value`, and the text after
them. -/
def takeHex? (value : Nat) : (count : Nat) → List Char → Option (Nat × List Char)
  | 0, cs => some (value, cs)
  | _ + 1, [] => none
  | count + 1, c :: cs =>
    match Json.hexValue? c with
    | none => none
    | some digit => takeHex? (value * 16 + digit) count cs

def takeUnicode? (count : Nat) (cs : List Char) : Option (Char × List Char) :=
  match takeHex? 0 count cs with
  | none => none
  | some (code, rest) => if code.isValidChar then some (Char.ofNat code, rest) else none

def shortEscaped? : Char → Option Char
  | 'b' => some '\x08'
  | 't' => some '\t'
  | 'n' => some '\n'
  | 'f' => some '\x0c'
  | 'r' => some '\r'
  | '"' => some '"'
  | '\\' => some '\\'
  | _ => none

/-- The character of an escape, and the text after it. -/
def escape? : List Char → Option (Char × List Char)
  | [] => none
  | c :: cs =>
    if c = 'u' then takeUnicode? 4 cs
    else if c = 'U' then takeUnicode? 8 cs
    else (shortEscaped? c).map fun e => (e, cs)

theorem length_takeHex?_le {value count : Nat} {cs rest : List Char} {n : Nat}
    (h : takeHex? value count cs = some (n, rest)) : rest.length ≤ cs.length := by
  induction count generalizing value cs with
  | zero =>
    simp only [takeHex?, Option.some.injEq, Prod.mk.injEq] at h
    exact Nat.le_of_eq (congrArg List.length h.2.symm)
  | succ count ih =>
    cases cs with
    | nil => cases h
    | cons c cs =>
      simp only [takeHex?] at h
      split at h
      · cases h
      · have := ih h; simp only [List.length_cons]; omega

theorem length_takeUnicode?_le {count : Nat} {cs rest : List Char} {c : Char}
    (h : takeUnicode? count cs = some (c, rest)) : rest.length ≤ cs.length := by
  simp only [takeUnicode?] at h
  split at h
  · cases h
  · next taken =>
    split at h
    · cases h; exact length_takeHex?_le taken
    · cases h

theorem length_escape?_lt {cs rest : List Char} {c : Char} (h : escape? cs = some (c, rest)) :
    rest.length < cs.length := by
  cases cs with
  | nil => cases h
  | cons e cs =>
    simp only [escape?] at h
    split at h
    · have := length_takeUnicode?_le h; simp only [List.length_cons]; omega
    · split at h
      · have := length_takeUnicode?_le h; simp only [List.length_cons]; omega
      · obtain ⟨_, _, same⟩ := Option.map_eq_some_iff.mp h
        cases same; simp

/-! ## Texts

Each reader is given the characters `done` of a text, newest first, and gives the whole text and
what follows its end. -/

/-- The rest of a text between quotes. -/
def readQuoted (done : List Char) : List Char → Option (List Char × List Char)
  | [] => none
  | c :: cs =>
    if c = '"' then some (done.reverse, cs)
    else if c = '\\' then
      match _found : escape? cs with
      | none => none
      | some (e, rest) => readQuoted (e :: done) rest
    else if isPlain c then readQuoted (c :: done) cs
    else none
termination_by cs => cs.length
decreasing_by
  · have := length_escape?_lt ‹_›; simp only [List.length_cons]; omega
  · simp

/-- The rest of a text between apostrophes. -/
def readLiteral (done : List Char) : List Char → Option (List Char × List Char)
  | [] => none
  | c :: cs =>
    if c = '\'' then some (done.reverse, cs)
    else if isPlain c then readLiteral (c :: done) cs
    else none

/-- The blanks and line ends that a text begins with are dropped. -/
def dropGap : List Char → List Char
  | [] => []
  | c :: cs =>
    if isSpace c ∨ c = '\n' then dropGap cs
    else if c = '\r' then
      match cs with
      | [] => [c]
      | d :: rest => if d = '\n' then dropGap rest else c :: d :: rest
    else c :: cs

/-- A backslash at the end of a line, blanks apart, joins it to the next text in the block: what
follows the gap. -/
def afterJoin? (cs : List Char) : Option (List Char) :=
  (afterLineEnd? (cs.dropWhile isSpace)).map dropGap

/-- The end of a block of which the quotes begin `cs`: three of them, after up to two that belong to
the text. -/
def endOfBlock? (quote : Char) (cs : List Char) : Option (List Char × List Char) :=
  let count := (cs.takeWhile (· = quote)).length
  if 3 ≤ count then
    let extra := min (count - 3) 2
    some (List.replicate extra quote, cs.drop (extra + 3))
  else none

theorem length_dropGap_le (cs : List Char) : (dropGap cs).length ≤ cs.length := by
  fun_induction dropGap cs <;> simp_all only [List.length_cons, List.length_nil, Nat.le_refl] <;>
    omega

theorem length_afterLineEnd?_lt {cs rest : List Char} (h : afterLineEnd? cs = some rest) :
    rest.length < cs.length := by
  cases cs with
  | nil => cases h
  | cons c cs =>
    simp only [afterLineEnd?] at h
    split at h
    · cases h; simp
    · split at h
      · split at h
        · cases h
        · split at h
          · cases h; simp only [List.length_cons]; omega
          · cases h
      · cases h

theorem length_afterJoin?_lt {cs rest : List Char} (h : afterJoin? cs = some rest) :
    rest.length < cs.length := by
  obtain ⟨after, found, rfl⟩ := Option.map_eq_some_iff.mp h
  have := length_afterLineEnd?_lt found
  have := length_dropGap_le after
  have := (List.dropWhile_suffix (l := cs) isSpace).length_le
  omega

/-- The rest of a block between quotes. -/
def readBlock (done : List Char) : List Char → Option (List Char × List Char)
  | [] => none
  | c :: cs =>
    match endOfBlock? '"' (c :: cs) with
    | some (extra, rest) => some (done.reverse ++ extra, rest)
    | none =>
      if c = '\\' then
        match _join : afterJoin? cs with
        | some rest => readBlock done rest
        | none =>
          match _found : escape? cs with
          | none => none
          | some (e, rest) => readBlock (e :: done) rest
      else
        match _line : afterLineEnd? (c :: cs) with
        | some rest => readBlock ('\n' :: done) rest
        | none => if isPlain c then readBlock (c :: done) cs else none
termination_by cs => cs.length
decreasing_by
  · have := length_afterJoin?_lt ‹_›; simp only [List.length_cons]; omega
  · have := length_escape?_lt ‹_›; simp only [List.length_cons]; omega
  · exact length_afterLineEnd?_lt ‹_›
  · simp

/-- The rest of a block between apostrophes. -/
def readLiteralBlock (done : List Char) : List Char → Option (List Char × List Char)
  | [] => none
  | c :: cs =>
    match endOfBlock? '\'' (c :: cs) with
    | some (extra, rest) => some (done.reverse ++ extra, rest)
    | none =>
      match _line : afterLineEnd? (c :: cs) with
      | some rest => readLiteralBlock ('\n' :: done) rest
      | none => if isPlain c then readLiteralBlock (c :: done) cs else none
termination_by cs => cs.length
decreasing_by
  · exact length_afterLineEnd?_lt ‹_›
  · simp

/-- A block does not begin with the line end after its quotes. -/
def afterOpening (cs : List Char) : List Char := (afterLineEnd? cs).getD cs

/-- The text that stands after a quote, and what follows it. -/
def readText (quote : Char) (cs : List Char) : Option (Token × List Char) :=
  let isBlock := cs.take 2 = [quote, quote]
  let isLiteral := quote = '\''
  if isBlock then
    let body := afterOpening (cs.drop 2)
    (if isLiteral then readLiteralBlock [] body else readBlock [] body).map fun (text, rest) =>
      (.block (String.ofList text), rest)
  else
    (if isLiteral then readLiteral [] cs else readQuoted [] cs).map fun (text, rest) =>
      (.quoted (String.ofList text), rest)

/-! ## Tokens -/

/-- The token that a text begins with, where its first character is no blank and begins no comment,
and the text after it. -/
def next? (c : Char) (cs : List Char) : Option (Token × List Char) :=
  match afterLineEnd? (c :: cs) with
  | some rest => some (.lineEnd, rest)
  | none =>
    if c = '=' then some (.equals, cs)
    else if isBare c then
      some (.bare (String.ofList (c :: cs.takeWhile isBare)), cs.dropWhile isBare)
    else if c = '"' ∨ c = '\'' then readText c cs
    else none

/-- The tokens `done`, newest first, and those of the rest of a file. A token takes a character at
least. -/
def tokensFrom (done : List Token) : List Char → Option (List Token)
  | [] => some done.reverse
  | c :: cs =>
    if isSpace c then tokensFrom done cs
    else if c = '#' then tokensFrom done (cs.dropWhile isPlain)
    else
      match next? c cs with
      | none => none
      | some (token, rest) =>
        if rest.length ≤ cs.length then tokensFrom (token :: done) rest else none
termination_by cs => cs.length
decreasing_by
  · simp
  · have := (List.dropWhile_suffix (l := cs) isPlain).length_le
    simp only [List.length_cons]; omega
  · simp only [List.length_cons]; omega

/-- The tokens of a file, which may begin with a byte order mark. -/
def tokens (text : String) : Option (List Token) :=
  match text.toList with
  | [] => some []
  | c :: cs => tokensFrom [] (if c = '\uFEFF' then cs else c :: cs)

end Worksheet.Settings
