import Worksheet.Proofs.Decimal.Layout
import Worksheet.Proofs.Formula.Parsed
import Worksheet.Proofs.Formula.Strength

/-!
# Parsing the text of a tree

The text of a formed tree at any cell spells lexemes (`Rendered`). If every reference of the tree
leads to a cell there, all of them are tokens, and what the tokens are stands as strongly as the
text (`Stands`). If some reference leads off the grid, the first lexeme that is no token is a `#`
(`Legible`). So the text of a parsed tree is parsed as the same tree wherever its references lead to
cells, and nowhere else.

Results:
* `exists_rendered`: the lexemes of the text of a formed tree.
* `parse_text_resolved`, `parse_text_astray`: the text of a parsed tree at another cell.
* `parse_text`: it is parsed as the tree or refused.
-/
namespace Worksheet

/-! ## Legible lexemes -/

namespace Lexeme

variable {dest : Position} {P Q : Prop} {l : Lexeme} {ls ms : List Lexeme}

/-- The lexemes are all tokens if `P` holds; else the first that is none is a `#`. -/
structure Legible (dest : Position) (P : Prop) (ls : List Lexeme) : Prop where
  sense : P → ∀ l ∈ ls, (l.sense? dest).isSome
  refusal : ¬ P → ∃ before after, ls = before ++ stray '#' :: after ∧
    ∀ l ∈ before, (l.sense? dest).isSome

theorem legible_singleton (h : (l.sense? dest).isSome) (hP : P) : Legible dest P [l] where
  sense _ := by simpa using h
  refusal not := absurd hP not

theorem Legible.congr (h : Legible dest P ls) (same : P ↔ Q) : Legible dest Q ls :=
  ⟨fun hQ => h.sense (same.mpr hQ), fun not => h.refusal (mt same.mp not)⟩

theorem Legible.append (h : Legible dest P ls) (h' : Legible dest Q ms) :
    Legible dest (P ∧ Q) (ls ++ ms) where
  sense both := fun l hl =>
    (List.mem_append.mp hl).elim (h.sense both.1 l) (h'.sense both.2 l)
  refusal not := by
    by_cases hP : P
    · obtain ⟨before, after, rfl, sense⟩ := h'.refusal fun hQ => not ⟨hP, hQ⟩
      refine ⟨ls ++ before, after, by rw [List.append_assoc], fun l hl => ?_⟩
      exact (List.mem_append.mp hl).elim (h.sense hP l) (sense l)
    · obtain ⟨before, after, rfl, sense⟩ := h.refusal hP
      exact ⟨before, after ++ ms, by rw [List.append_assoc, List.cons_append], sense⟩

theorem Legible.cons (h : (l.sense? dest).isSome) (h' : Legible dest P ls) :
    Legible dest P (l :: ls) :=
  ((legible_singleton h trivial).append h').congr (Iff.of_eq (true_and P))

def tokens (dest : Position) (ls : List Lexeme) : List Token := ls.filterMap (sense? dest)

theorem tokens_append : tokens dest (ls ++ ms) = tokens dest ls ++ tokens dest ms :=
  List.filterMap_append

theorem tokens_cons {t : Token} (h : l.sense? dest = some t) :
    tokens dest (l :: ls) = t :: tokens dest ls :=
  List.filterMap_cons_some h

theorem tokens_mark (c : Char) :
    tokens dest (mark c :: ls) = ⟨.mark c, String.ofList [c]⟩ :: tokens dest ls := rfl

theorem map_sense?_eq (h : ∀ l ∈ ls, (l.sense? dest).isSome) :
    ls.map (sense? dest) = (tokens dest ls).map some := by
  induction ls with
  | nil => rfl
  | cons l ls ih =>
    obtain ⟨t, ht⟩ := Option.isSome_iff_exists.mp (h l List.mem_cons_self)
    rw [List.map_cons, tokens_cons ht, List.map_cons, ht,
      ih fun m hm => h m (List.mem_cons_of_mem l hm)]

end Lexeme

namespace Expr

open Lexeme (Spells Legible tokens)

variable {base dest : Position} {text : String} {tree e left right : Expr} {es : List Expr} {op : Op}
  {k m : Nat} {cs ds : List Char} {ls ms : List Lexeme}

/-! ## Texts made from trees -/

/-- Every reference of the tree leads to a cell. -/
def Resolves (dest : Position) (e : Expr) : Prop := ∀ r ∈ e.targets, (r.resolve? dest).isSome

theorem resolves_apply_iff : (apply op es).Resolves dest ↔ ∀ e ∈ es, e.Resolves dest := by
  constructor
  · exact fun h e he r hr => h r (mem_targets_apply.mpr ⟨e, he, hr⟩)
  · intro h r hr
    obtain ⟨e, he, hr⟩ := mem_targets_apply.mp hr
    exact h e he r hr

/-- A text of strength `k` that spells the lexemes of a tree. -/
structure Rendered (dest : Position) (cs : List Char) (k : Nat) (e : Expr) (ls : List Lexeme) :
    Prop where
  spells : Spells cs ls
  legible : Legible dest (e.Resolves dest) ls
  stands : e.Resolves dest → Stands k (tokens dest ls) e

/-! ## Single operands -/

theorem spells_whole {l : Lexeme} (h : l.Whole) : Spells l.text [l] := by
  have := Spells.lexeme h (.inr stops_nil) .nil
  rwa [List.append_nil] at this

theorem exists_rendered_number (d : Decimal) :
    ∃ ls, Rendered dest (numberText d.toFloat).toList Op.strongest (.number d.toFloat) ls := by
  obtain ⟨n, wellFormed, text, value⟩ := d.exists_numeral
  have sense : (Lexeme.numeral n).sense? dest =
      some ⟨.number n.value.toFloat, String.ofList n.text⟩ := rfl
  refine ⟨[.numeral n], ?_, ?_, fun _ => stands_of_factor ?_⟩
  · rw [← text]
    exact spells_whole (l := .numeral n) wellFormed
  · exact Lexeme.legible_singleton (by rw [sense]; rfl) nofun
  · rw [Lexeme.tokens_cons sense, value]
    exact .number rfl

theorem ofName?_eq_none {text : String} {r : Reference} (h : Reference.read dest text = .ok r) :
    Op.ofName? text = none := by
  have min : ∃ e, Address.read "min" = .error e := ⟨_, rfl⟩
  have max : ∃ e, Address.read "max" = .error e := ⟨_, rfl⟩
  obtain ⟨e, min⟩ := min
  obtain ⟨e', max⟩ := max
  unfold Op.ofName?
  rw [if_neg, if_neg]
  · intro same
    subst same
    rw [Reference.read, max] at h
    cases h
  · intro same
    subst same
    rw [Reference.read, min] at h
    cases h

theorem resolves_reference_iff {r : Reference} :
    (Expr.reference r).Resolves dest ↔ (r.resolve? dest).isSome :=
  List.forall_mem_singleton

/-- A reference that leads off the grid spells no token. -/
theorem rendered_offGrid {r : Reference} (off : r.resolve? dest = none) :
    Rendered dest (r.text dest).toList Op.strongest (.reference r)
      [.stray '#', .word ['R', 'E', 'F'], .stray '!'] := by
  have not : ¬ (Expr.reference r).Resolves dest := by
    rw [resolves_reference_iff, off]
    exact Bool.false_ne_true
  refine ⟨?_, ⟨fun resolves => absurd resolves not, fun _ => ?_⟩,
    fun resolves => absurd resolves not⟩
  · have text : r.text dest = "#REF!" := by rw [Reference.text, off]
    rw [text]
    have bang : Spells ['!'] [.stray '!'] := spells_whole (l := .stray '!') ⟨rfl, rfl, by decide⟩
    have stop : Stops ['!'] := by
      intro c hc
      cases hc
      decide
    have word : Spells ['R', 'E', 'F', '!'] [.word ['R', 'E', 'F'], .stray '!'] :=
      .lexeme (l := .word ['R', 'E', 'F']) ⟨⟨'R', rfl, rfl⟩, List.all_eq_true.mp rfl⟩ (.inr stop) bang
    exact .lexeme (l := .stray '#') ⟨rfl, rfl, by decide⟩ (.inl trivial) word
  · exact ⟨[], [.word ['R', 'E', 'F'], .stray '!'], rfl, by simp⟩

theorem whole_chars {a : Address} (onGrid : a.position.OnGrid) : (Lexeme.word a.chars).Whole := by
  refine ⟨Address.isDigit_head_chars onGrid, fun c hc => ?_⟩
  rcases Address.mem_chars onGrid hc with word | rfl
  · simp [isWordChar, word]
  · decide

/-- A reference that leads to a cell spells one word. -/
theorem rendered_onGrid {r : Reference} {p : Position} (leads : r.resolve? dest = some p) :
    Rendered dest (r.text dest).toList Op.strongest (.reference r)
      [.word (r.address p).chars] := by
  have onGrid := Reference.onGrid_of_resolve? leads
  have text := Reference.text_eq leads
  have read := Reference.read_text leads
  have sense : (Lexeme.word (r.address p).chars).sense? dest =
      some ⟨.reference r, r.text dest⟩ := by
    have name := ofName?_eq_none read
    rw [text] at read name ⊢
    have token : (Lexeme.word (r.address p).chars).token dest 0 =
        .ok ⟨.reference r, String.ofList (r.address p).chars⟩ := by
      simp only [Lexeme.token, Lexeme.text, name, read]
    exact Lexeme.sense?_of_token token
  have whole : (Lexeme.word (r.address p).chars).Whole := whole_chars onGrid
  have resolves : (Expr.reference r).Resolves dest := by
    rw [resolves_reference_iff, leads]
    rfl
  refine ⟨?_, ?_, fun _ => stands_of_factor ?_⟩
  · rw [text, String.toList_ofList]
    exact spells_whole whole
  · exact Lexeme.legible_singleton (by rw [sense]; rfl) resolves
  · rw [Lexeme.tokens_cons sense]
    exact .reference rfl

theorem exists_rendered_reference (r : Reference) :
    ∃ ls, Rendered dest (r.text dest).toList Op.strongest (.reference r) ls := by
  cases leads : r.resolve? dest with
  | none => exact ⟨_, rendered_offGrid leads⟩
  | some p => exact ⟨_, rendered_onGrid leads⟩

/-! ## Operations -/

theorem spells_close : Spells [')'] [.mark ')'] := Lexeme.spells_mark (by decide) .nil

theorem sense?_mark_isSome {c : Char} : ((Lexeme.mark c).sense? dest).isSome := rfl

theorem Rendered.group (h : Rendered dest cs k e ls) (less : k < Op.strongest) :
    Rendered dest ('(' :: (cs ++ [')'])) Op.strongest e (.mark '(' :: (ls ++ [.mark ')'])) where
  spells := Lexeme.spells_mark (by decide)
    (h.spells.append spells_close (stops_mark (by decide) []))
  legible := .cons sense?_mark_isSome
    ((h.legible.append (Lexeme.legible_singleton sense?_mark_isSome trivial)).congr
      (Iff.of_eq (and_true _)))
  stands resolves := by
    rw [Lexeme.tokens_mark, Lexeme.tokens_append]
    exact (h.stands resolves).group less rfl rfl

/-- A text stands as strongly as it must if it has parentheses where it does not. -/
theorem Rendered.exists_within {w : Written} (h : Rendered dest w.text.toList w.strength e ls)
    (wrap : Prop) [Decidable wrap] (less : wrap → w.strength < Op.strongest) :
    ∃ ms, Rendered dest (w.within wrap).toList (if wrap then Op.strongest else w.strength) e ms := by
  unfold Written.within
  by_cases hw : wrap
  · rw [if_pos hw, if_pos (decide_eq_true hw)]
    refine ⟨.mark '(' :: (ls ++ [.mark ')']), ?_⟩
    have text : ("(" ++ w.text ++ ")").toList = '(' :: (w.text.toList ++ [')']) := by simp
    rw [text]
    exact h.group (less hw)
  · rw [if_neg hw, if_neg (by simp [hw])]
    exact ⟨ls, h⟩

theorem Rendered.negation (h : Rendered dest cs k e ls) (single : Op.mul.strength < k) :
    Rendered dest ('-' :: cs) Op.strongest (.apply .sub [e]) (.mark '-' :: ls) where
  spells := Lexeme.spells_mark (by decide) h.spells
  legible := .cons sense?_mark_isSome
    (h.legible.congr (by rw [resolves_apply_iff, List.forall_mem_singleton]))
  stands resolves := by
    rw [Lexeme.tokens_mark]
    exact (h.stands (resolves_apply_iff.mp resolves e List.mem_cons_self)).negation single rfl

theorem exists_sign (h : op.isFunction = false) : ∃ c ∈ marks, op.symbol.toList = [c] ∧
    (Op.add.strength = op.strength ∧ Op.ofSumSign? c = some op ∨
      Op.mul.strength = op.strength ∧ Op.ofProductSign? c = some op) := by
  cases op with
  | add => exact ⟨'+', by decide, rfl, .inl ⟨rfl, rfl⟩⟩
  | sub => exact ⟨'-', by decide, rfl, .inl ⟨rfl, rfl⟩⟩
  | mul => exact ⟨'*', by decide, rfl, .inr ⟨rfl, rfl⟩⟩
  | div => exact ⟨'/', by decide, rfl, .inr ⟨rfl, rfl⟩⟩
  | min => cases h
  | max => cases h

theorem Rendered.exists_operation (function : op.isFunction = false)
    (hl : Rendered dest cs k left ls) (hr : Rendered dest ds m right ms) (le : op.strength ≤ k)
    (lt : op.strength < m) :
    ∃ ls, Rendered dest (cs ++ op.symbol.toList ++ ds) op.strength (.apply op [left, right]) ls := by
  obtain ⟨c, mem, symbol, sign⟩ := exists_sign function
  have text : cs ++ op.symbol.toList ++ ds = cs ++ c :: ds := by rw [symbol]; simp
  have both : (apply op [left, right]).Resolves dest ↔ left.Resolves dest ∧ right.Resolves dest := by
    rw [resolves_apply_iff]
    simp
  rw [text]
  refine ⟨ls ++ .mark c :: ms, ?_, ?_, fun resolves => ?_⟩
  · exact hl.spells.append (Lexeme.spells_mark mem hr.spells) (stops_mark mem ds)
  · exact (hl.legible.append (.cons sense?_mark_isSome hr.legible)).congr both.symm
  · obtain ⟨first, last⟩ := both.mp resolves
    rw [Lexeme.tokens_append, Lexeme.tokens_mark]
    rcases sign with ⟨sum, sign⟩ | ⟨product, sign⟩
    · exact stands_sum sum sign (hl.stands first) (hr.stands last) lt
    · exact stands_product product sign (hl.stands first) (hr.stands last) le lt

/-! ## Calls -/

theorem written_apply (dest : Position) (op : Op) (es : List Expr) :
    written dest (.apply op es) = Written.operation op (es.map (written dest)) :=
  fold_apply ..

theorem exists_name (dest : Position) (h : op.isFunction = true) :
    (Lexeme.word op.symbol.toList).Whole ∧ op.strength = Op.strongest ∧
      (Lexeme.word op.symbol.toList).sense? dest = some ⟨.function op, op.symbol⟩ := by
  cases op with
  | min => exact ⟨⟨⟨'m', rfl, rfl⟩, List.all_eq_true.mp rfl⟩, rfl, rfl⟩
  | max => exact ⟨⟨⟨'m', rfl, rfl⟩, List.all_eq_true.mp rfl⟩, rfl, rfl⟩
  | _ => cases h

theorem operation_eq_call (h : op.isFunction = true) (ws : List Written) :
    Written.operation op ws = ⟨Written.call op ws, op.strength⟩ := by
  have notSub : op ≠ .sub := by
    intro same
    subst same
    cases h
  unfold Written.operation
  split
  · rw [if_neg notSub]
  · rw [if_pos h]
  · rfl

theorem intercalate_cons {α : Type} (sep x : List α) (xs : List (List α)) :
    sep.intercalate (x :: xs) = x ++ xs.flatMap fun y => sep ++ y := by
  induction xs generalizing x with
  | nil => rw [List.intercalate_singleton, List.flatMap_nil, List.append_nil]
  | cons y ys ih =>
    rw [List.intercalate_cons_cons, ih, List.flatMap_cons, List.append_assoc, List.append_assoc]

def furtherText (dest : Position) (es : List Expr) : List Char :=
  es.flatMap fun e => ',' :: ' ' :: (e.text dest).toList

theorem toList_call (dest : Position) (op : Op) (e : Expr) (es : List Expr) :
    (Written.call op ((e :: es).map (written dest))).toList = op.symbol.toList ++
      '(' :: ((e.text dest).toList ++ (furtherText dest es ++ [')'])) := by
  have sep : (", " : String).toList = [',', ' '] := rfl
  rw [Written.call, String.toList_append, String.toList_append, String.toList_append,
    String.toList_intercalate, sep, List.map_cons, List.map_cons, List.map_cons, intercalate_cons,
    furtherText, List.flatMap_map, List.flatMap_map, List.flatMap_map]
  simp [text]

theorem stops_furtherText (dest : Position) (es : List Expr) : Stops (furtherText dest es) := by
  cases es with
  | nil => exact stops_nil
  | cons e es => exact stops_mark (by decide) _

/-- The texts of the arguments after the first spell their lexemes. -/
structure FurtherRendered (dest : Position) (es : List Expr) (ls : List Lexeme) : Prop where
  spells : Spells (furtherText dest es) ls
  legible : Legible dest (∀ e ∈ es, e.Resolves dest) ls
  further : (∀ e ∈ es, e.Resolves dest) → ∀ depth, (∀ e ∈ es, e.height ≤ depth) →
    Further (IsExpression depth) (tokens dest ls) es

theorem exists_furtherRendered
    (h : ∀ e ∈ es, ∃ ls, Rendered dest (e.text dest).toList (e.written dest).strength e ls) :
    ∃ ls, FurtherRendered dest es ls := by
  induction es with
  | nil => exact ⟨[], .nil, ⟨nofun, fun not => absurd nofun not⟩, fun _ _ _ => .none⟩
  | cons e es ih =>
    obtain ⟨ls, first⟩ := h e List.mem_cons_self
    obtain ⟨ms, others⟩ := ih fun x hx => h x (List.mem_cons_of_mem e hx)
    refine ⟨.mark ',' :: (ls ++ ms), ?_, ?_, fun resolves depth low => ?_⟩
    · refine Lexeme.spells_mark (by decide) (.blank (by decide) ?_)
      exact first.spells.append others.spells (stops_furtherText dest es)
    · refine .cons sense?_mark_isSome ((first.legible.append others.legible).congr ?_)
      exact List.forall_mem_cons.symm
    · obtain ⟨resolves, resolve⟩ := List.forall_mem_cons.mp resolves
      obtain ⟨low, lower⟩ := List.forall_mem_cons.mp low
      rw [Lexeme.tokens_mark, Lexeme.tokens_append]
      exact .more rfl ((first.stands resolves).expression.mono low) (others.further resolve depth lower)

theorem Rendered.exists_call (function : op.isFunction = true)
    (first : Rendered dest (e.text dest).toList k e ls) (others : FurtherRendered dest es ms) :
    ∃ ls, Rendered dest (Written.call op ((e :: es).map (written dest))).toList Op.strongest
      (.apply op (e :: es)) ls := by
  obtain ⟨whole, -, sense⟩ := exists_name dest function
  have close : Stops (furtherText dest es ++ [')']) :=
    (stops_furtherText dest es).append (stops_mark (by decide) [])
  have arguments : Spells (furtherText dest es ++ [')']) (ms ++ [.mark ')']) :=
    others.spells.append spells_close (stops_mark (by decide) [])
  rw [toList_call]
  refine ⟨.word op.symbol.toList :: .mark '(' :: (ls ++ (ms ++ [.mark ')'])), ?_, ?_, ?_⟩
  · refine .lexeme (l := .word op.symbol.toList) whole (.inr (stops_mark (by decide) _)) ?_
    exact Lexeme.spells_mark (by decide) (first.spells.append arguments close)
  · refine .cons (by rw [sense]; rfl) (.cons sense?_mark_isSome ?_)
    refine (first.legible.append (others.legible.append
      (Lexeme.legible_singleton sense?_mark_isSome trivial))).congr ?_
    rw [and_true, resolves_apply_iff, List.forall_mem_cons]
  · intro resolves
    obtain ⟨resolve, resolves⟩ := List.forall_mem_cons.mp (resolves_apply_iff.mp resolves)
    obtain ⟨depth, high⟩ := exists_height_eq (.apply op (e :: es))
    obtain ⟨low, lower⟩ := List.forall_mem_cons.mp (height_apply_le_iff.mp high.le)
    rw [Lexeme.tokens_cons sense, Lexeme.tokens_mark, Lexeme.tokens_append, Lexeme.tokens_append]
    exact stands_call rfl rfl ((first.stands resolve).expression.mono low)
      (others.further resolves depth lower) rfl high

/-! ## Whole trees -/

theorem exists_rendered_negation
    (operand : Rendered dest (e.text dest).toList (e.written dest).strength e ls) :
    ∃ ls, Rendered dest ((apply .sub [e]).text dest).toList
      ((apply .sub [e]).written dest).strength (.apply .sub [e]) ls := by
  obtain ⟨ms, operand⟩ := operand.exists_within (w := e.written dest)
    ((e.written dest).strength < Op.strongest) id
  have single : Op.mul.strength <
      if (e.written dest).strength < Op.strongest then Op.strongest
        else (e.written dest).strength := by
    split
    · decide
    · next single => exact Nat.lt_of_lt_of_le (by decide) (Nat.le_of_not_lt single)
  have result := operand.negation single
  rw [text, written_apply]
  refine ⟨.mark '-' :: ms, ?_⟩
  show Rendered dest ("-" ++ _).toList Op.strongest _ _
  rw [String.toList_append]
  exact result

theorem exists_rendered_operation (function : op.isFunction = false)
    (hl : Rendered dest (left.text dest).toList (left.written dest).strength left ls)
    (hr : Rendered dest (right.text dest).toList (right.written dest).strength right ms) :
    ∃ ls, Rendered dest ((apply op [left, right]).text dest).toList
      ((apply op [left, right]).written dest).strength (.apply op [left, right]) ls := by
  have weak : op.strength < Op.strongest := by
    cases op with
    | min => cases function
    | max => cases function
    | _ => decide
  obtain ⟨ls, hl⟩ := hl.exists_within (w := left.written dest)
    ((left.written dest).strength < op.strength) fun less => Nat.lt_trans less weak
  obtain ⟨ms, hr⟩ := hr.exists_within (w := right.written dest)
    ((right.written dest).strength ≤ op.strength) fun le => Nat.lt_of_le_of_lt le weak
  obtain ⟨ns, whole⟩ := hl.exists_operation function hr
    (by
      split
      · exact weak.le
      · next enough => exact Nat.le_of_not_lt enough)
    (by
      split
      · exact weak
      · next more => exact Nat.lt_of_not_le more)
  rw [text, written_apply]
  refine ⟨ns, ?_⟩
  show Rendered dest (Written.operation op [left.written dest, right.written dest]).text.toList
    (Written.operation op [left.written dest, right.written dest]).strength _ ns
  rw [Written.operation, if_neg (by simp [function]), String.toList_append, String.toList_append]
  exact whole

/-- The text of a formed tree at any cell. -/
theorem exists_rendered (h : e.Formed base) (dest : Position) :
    ∃ ls, Rendered dest (e.text dest).toList (e.written dest).strength e ls := by
  induction h with
  | number d => exact exists_rendered_number d
  | @reference r _ => exact exists_rendered_reference r
  | negation _ ih =>
    obtain ⟨ls, operand⟩ := ih
    exact exists_rendered_negation operand
  | operation function _ _ ihl ihr =>
    obtain ⟨ls, hl⟩ := ihl
    obtain ⟨ms, hr⟩ := ihr
    exact exists_rendered_operation function hl hr
  | @call op e es function _ ih =>
    obtain ⟨ls, first⟩ := ih e List.mem_cons_self
    obtain ⟨ms, others⟩ := exists_furtherRendered fun x hx => ih x (List.mem_cons_of_mem e hx)
    obtain ⟨-, strength, -⟩ := exists_name dest function
    rw [text, written_apply, operation_eq_call function, strength]
    exact first.exists_call function others

/-- The text of a parsed tree at a cell where all its references lead to cells. -/
theorem parse_text_resolved (h : parse base text = .ok tree) (resolves : tree.Resolves dest) :
    parse dest (tree.text dest) = .ok tree := by
  obtain ⟨ls, rendered⟩ := exists_rendered (formed_of_parse h) dest
  have low := height_le_of_parse h
  have scanned := Lexeme.scan_of_spells rendered.spells
    (Lexeme.map_sense?_eq (rendered.legible.sense resolves))
  exact parse_eq_ok_iff.mpr
    ⟨_, scanned, (rendered.stands resolves).expression.mono low, low⟩

/-- The text of a parsed tree at a cell where some reference leads off the grid. -/
theorem parse_text_astray (h : parse base text = .ok tree)
    (astray : ∃ r ∈ tree.targets, r.resolve? dest = none) :
    ∃ offset, parse dest (tree.text dest) = .error (.unexpectedChar '#' offset) := by
  obtain ⟨ls, rendered⟩ := exists_rendered (formed_of_parse h) dest
  obtain ⟨r, hr, off⟩ := astray
  have not : ¬ tree.Resolves dest := by
    intro resolves
    have := resolves r hr
    rw [off] at this
    cases this
  obtain ⟨before, after, rfl, sense⟩ := rendered.legible.refusal not
  obtain ⟨offset, refused⟩ := Lexeme.scan_error_of_spells rendered.spells sense
  exact ⟨offset, by rw [parse, refused]; rfl⟩

/-- **Round trip.** The tree of a parsed text is written at any cell as a text that is parsed there
as the same tree, if every reference of the tree leads to a cell of the grid; else the text is
refused for a `#`. -/
theorem parse_text (h : parse base text = .ok tree) (dest : Position) :
    ((∀ r ∈ tree.targets, (r.resolve? dest).isSome) →
      parse dest (tree.text dest) = .ok tree) ∧
    ((∃ r ∈ tree.targets, r.resolve? dest = none) →
      ∃ offset, parse dest (tree.text dest) = .error (.unexpectedChar '#' offset)) :=
  ⟨parse_text_resolved h, parse_text_astray h⟩

/-- A formula that is copied down and to the right, and off the grid. -/
theorem parse_text_copied : ∃ tree, parse ⟨1, 1⟩ "a1 - ($b3-2)*-max(a1, 1e400)" = .ok tree ∧
    tree.text ⟨2, 3⟩ = "b3-($b5-2)*-max(b3, 1e999)" ∧
    parse ⟨2, 3⟩ (tree.text ⟨2, 3⟩) = .ok tree ∧
    ∃ offset, parse ⟨0, 0⟩ (tree.text ⟨0, 0⟩) = .error (.unexpectedChar '#' offset) := by
  have checked : ((parse ⟨1, 1⟩ "a1 - ($b3-2)*-max(a1, 1e400)").toOption.any fun tree =>
      tree.text ⟨2, 3⟩ = "b3-($b5-2)*-max(b3, 1e999)" ∧
      (∀ r ∈ tree.targets, (r.resolve? ⟨2, 3⟩).isSome) ∧
      ∃ r ∈ tree.targets, r.resolve? ⟨0, 0⟩ = none) = true := by decide +kernel
  cases h : parse ⟨1, 1⟩ "a1 - ($b3-2)*-max(a1, 1e400)" with
  | error e => rw [h] at checked; cases checked
  | ok tree =>
    rw [h] at checked
    obtain ⟨text, leads, off⟩ := of_decide_eq_true checked
    exact ⟨tree, rfl, text, (parse_text h ⟨2, 3⟩).1 leads, (parse_text h ⟨0, 0⟩).2 off⟩

end Expr

end Worksheet
