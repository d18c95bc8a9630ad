import Worksheet.Proofs.Formula.Lexeme
import Worksheet.Proofs.Formula.Reading
import Worksheet.Proofs.Grid.Address

/-!
# Trees of parsed texts

A text is parsed as a tree if its tokens are an expression of that tree. Such a tree has operations
on as many operands as they take, numbers that decimals stand for, and references that lead to cells
of the grid (`Formed`). Of two tokens of an expression that touch, one is a mark, so no two of them
run into one another when the blanks between them are taken away.

Results:
* `formed_of_parse`: the tree of a parsed text is formed.
* `parse_sublist`, `parse_strip`: a text without some or all of its blanks is parsed as the same
  tree.
* `mem_references_iff`: a formula refers to the cells that its references lead to.
-/
namespace Worksheet

open List (IsChain)

variable {base : Position}

/-! ## References of a tree -/

def Expr.targets : Expr → List Reference :=
  fold (fun _ => []) (fun r => [r]) fun _ lists => lists.flatten

theorem Expr.mem_targets_apply {op : Op} {es : List Expr} {r : Reference} :
    r ∈ (apply op es).targets ↔ ∃ e ∈ es, r ∈ e.targets := by
  simp only [targets, fold_apply, List.mem_flatten, List.mem_map, exists_exists_and_eq_and]

theorem Expr.mem_references_iff {e : Expr} {p : Position} :
    p ∈ e.references base ↔ ∃ r ∈ e.targets, r.resolve? base = some p := by
  induction e using Expr.induction with
  | hnumber x => simp [references, targets]
  | hreference r => simp [references, targets]
  | happly op es ih =>
    simp only [mem_targets_apply]
    simp only [references, fold_apply, List.mem_flatten, List.mem_map, exists_exists_and_eq_and]
    constructor
    · intro holds
      obtain ⟨e, he, hp⟩ := holds
      obtain ⟨r, hr, leads⟩ := (ih e he).mp hp
      exact ⟨r, ⟨e, he, hr⟩, leads⟩
    · intro holds
      obtain ⟨r, ⟨e, he, hr⟩, leads⟩ := holds
      exact ⟨e, he, (ih e he).mpr ⟨r, hr, leads⟩⟩

theorem Expr.onGrid_of_mem_references {e : Expr} {p : Position} (h : p ∈ e.references base) :
    p.OnGrid := by
  obtain ⟨r, -, leads⟩ := mem_references_iff.mp h
  exact Reference.onGrid_of_resolve? leads

/-! ## Tokens of lexemes -/

theorem Lexeme.kind_of_sense? {l : Lexeme} {t : Token} (h : l.sense? base = some t) :
    (∃ n, l = numeral n ∧ t.kind = .number n.value.toFloat) ∨
    (∃ cs op, l = word cs ∧ op.isFunction = true ∧ t.kind = .function op) ∨
    (∃ cs r, l = word cs ∧ (r.resolve? base).isSome ∧ t.kind = .reference r) ∨
    ∃ c, l = mark c ∧ t.kind = .mark c := by
  have h := token_of_sense? h 0
  cases l with
  | numeral n => cases h; exact .inl ⟨n, rfl, rfl⟩
  | word cs =>
    simp only [Lexeme.token] at h
    split at h
    · next op name =>
      cases h
      refine .inr (.inl ⟨cs, op, rfl, ?_, rfl⟩)
      unfold Op.ofName? at name
      split at name
      · cases name; rfl
      · split at name <;> cases name
        rfl
    · split at h
      · next r read =>
        cases h
        exact .inr (.inr (.inl ⟨cs, r, rfl, Reference.resolve?_of_read read, rfl⟩))
      · cases h
  | mark c => cases h; exact .inr (.inr (.inr ⟨c, rfl, rfl⟩))
  | stray c => cases h

/-- A token that a text can have in a formula at `base`. -/
def Token.Grounded (base : Position) (t : Token) : Prop :=
  match t.kind with
  | .number x => ∃ d : Decimal, x = d.toFloat
  | .function op => op.isFunction = true
  | .reference r => (r.resolve? base).isSome
  | .mark _ => True

theorem Lexeme.grounded {l : Lexeme} {t : Token} (h : l.sense? base = some t) : t.Grounded base := by
  unfold Token.Grounded
  rcases kind_of_sense? h with ⟨n, -, kind⟩ | ⟨_, op, -, name, kind⟩ | ⟨_, r, -, leads, kind⟩ |
    ⟨c, -, kind⟩ <;> rw [kind]
  · exact ⟨n.value, rfl⟩
  · exact name
  · exact leads
  · trivial

theorem Lexeme.eq_mark_of_kind {l : Lexeme} {t : Token} {c : Char} (h : l.sense? base = some t)
    (kind : t.kind = .mark c) : l = mark c := by
  rcases kind_of_sense? h with ⟨n, -, same⟩ | ⟨_, op, -, -, same⟩ | ⟨_, r, -, -, same⟩ |
    ⟨d, rfl, same⟩ <;> rw [same] at kind <;> cases kind
  rfl

namespace Expr

variable {text : String} {tree e : Expr} {ts us : List Token} {t : Token}

/-! ## Formed trees -/

/-- A tree that a text at `base` can have. -/
inductive Formed (base : Position) : Expr → Prop
  | number (d : Decimal) : Formed base (.number d.toFloat)
  | reference {r : Reference} : (r.resolve? base).isSome → Formed base (.reference r)
  | negation {e : Expr} : Formed base e → Formed base (.apply .sub [e])
  | operation {op : Op} {left right : Expr} : op.isFunction = false → Formed base left →
      Formed base right → Formed base (.apply op [left, right])
  | call {op : Op} {e : Expr} {es : List Expr} : op.isFunction = true →
      (∀ x ∈ e :: es, Formed base x) → Formed base (.apply op (e :: es))

theorem Formed.resolves (h : e.Formed base) : ∀ r ∈ e.targets, (r.resolve? base).isSome := by
  induction h with
  | number d => nofun
  | reference leads =>
    intro r hr
    rwa [List.mem_singleton.mp hr]
  | negation _ ih => simpa [mem_targets_apply] using ih
  | operation _ _ _ left right =>
    intro r hr
    simp only [mem_targets_apply, List.mem_cons, List.not_mem_nil, or_false, exists_eq_or_imp,
      exists_eq_left] at hr
    exact hr.elim (left r) (right r)
  | call _ _ ih =>
    intro r hr
    obtain ⟨x, hx, hr⟩ := mem_targets_apply.mp hr
    exact ih x hx r hr

theorem isFunction_of_sign {c : Char} {op : Op}
    (h : Op.ofSumSign? c = some op ∨ Op.ofProductSign? c = some op) : op.isFunction = false := by
  unfold Op.ofSumSign? Op.ofProductSign? at h
  rcases h with h | h <;> split at h <;> cases h <;> rfl

theorem exists_mark_of_sign {op : Op}
    (h : t.sign? Op.ofSumSign? = some op ∨ t.sign? Op.ofProductSign? = some op) :
    ∃ c, t.kind = .mark c ∧ op.isFunction = false := by
  unfold Token.sign? at h
  cases kind : t.kind with
  | mark c => rw [kind] at h; exact ⟨c, rfl, isFunction_of_sign h⟩
  | _ => rw [kind] at h; rcases h with h | h <;> cases h

theorem closed_formed (base : Position) :
    Closed (fun ts e => (∀ t ∈ ts, t.Grounded base) → e.Formed base)
      (fun ts es => (∀ t ∈ ts, t.Grounded base) → ∀ e ∈ es, e.Formed base) where
  number {t x} kind grounded := by
    have := grounded t List.mem_cons_self
    rw [Token.Grounded, kind] at this
    obtain ⟨d, rfl⟩ := this
    exact .number d
  reference {t r} kind grounded := by
    have := grounded t List.mem_cons_self
    rw [Token.Grounded, kind] at this
    exact .reference this
  negation _ ih grounded := .negation (ih fun t ht => grounded t (List.mem_cons_of_mem _ ht))
  group _ ih _ grounded := ih fun t ht => grounded t (by simp [ht])
  call {t _ _ op _ _ _ _} kind _ ih ihs _ grounded := by
    have name := grounded t List.mem_cons_self
    rw [Token.Grounded, kind] at name
    refine .call name fun x hx => ?_
    rcases List.mem_cons.mp hx with rfl | hx
    · exact ih fun t ht => grounded t (by simp [ht])
    · exact ihs (fun t ht => grounded t (by simp [ht])) x hx
  join ihl sign ihr grounded := by
    obtain ⟨c, -, operation⟩ := exists_mark_of_sign sign
    exact .operation operation (ihl fun t ht => grounded t (by simp [ht]))
      (ihr fun t ht => grounded t (by simp [ht]))
  none := nofun
  more _ ih ihs grounded x hx := by
    rcases List.mem_cons.mp hx with rfl | hx
    · exact ih fun t ht => grounded t (by simp [ht])
    · exact ihs (fun t ht => grounded t (by simp [ht])) x hx

/-! ## Tokens that touch -/

/-- One of two tokens is a mark. -/
def Apart (t u : Token) : Prop := (∃ c, t.kind = .mark c) ∨ ∃ c, u.kind = .mark c

theorem apart_cons {c : Char} (kind : t.kind = .mark c) (h : ts.IsChain Apart) :
    (t :: ts).IsChain Apart :=
  h.cons fun _ _ => .inl ⟨c, kind⟩

theorem apart_append {c : Char} (kind : t.kind = .mark c) (hts : ts.IsChain Apart)
    (hus : us.IsChain Apart) : (ts ++ t :: us).IsChain Apart := by
  refine hts.append (apart_cons kind hus) fun _ _ u hu => ?_
  cases hu
  exact .inr ⟨c, kind⟩

theorem closed_apart : Closed (fun ts _ => ts.IsChain Apart ∧ ts ≠ [])
    (fun ts _ => ts.IsChain Apart ∧ ∀ t ∈ ts.head?, t.kind = .mark ',') where
  number _ := ⟨.singleton _, List.cons_ne_nil _ _⟩
  reference _ := ⟨.singleton _, List.cons_ne_nil _ _⟩
  negation kind ih := ⟨apart_cons kind ih.1, List.cons_ne_nil _ _⟩
  group open_ ih close := ⟨apart_cons open_ (apart_append close ih.1 .nil), List.cons_ne_nil _ _⟩
  call {t opening closing op ts us e es} _ open_ ih ihs close := by
    refine ⟨?_, List.cons_ne_nil _ _⟩
    have inner : (ts ++ (us ++ [closing])).IsChain Apart := by
      refine ih.1.append (apart_append close ihs.1 .nil) fun _ _ u hu => ?_
      cases us with
      | nil => cases hu; exact .inr ⟨')', close⟩
      | cons v us => exact .inr ⟨',', ihs.2 u hu⟩
    refine (apart_cons open_ inner).cons fun u hu => ?_
    cases hu
    exact .inr ⟨'(', open_⟩
  join ihl sign ihr := by
    obtain ⟨c, kind, -⟩ := exists_mark_of_sign sign
    exact ⟨apart_append kind ihl.1 ihr.1, by simp⟩
  none := ⟨.nil, nofun⟩
  more {t ts us e es} comma ih ihs := by
    refine ⟨apart_cons comma (ih.1.append ihs.1 fun _ _ u hu => ?_), ?_⟩
    · exact .inr ⟨',', ihs.2 u hu⟩
    · intro _ first
      cases first
      exact comma

/-! ## Parsed texts -/

theorem parse_eq_ok_iff : parse base text = .ok tree ↔
    ∃ ts, Token.scan base text = .ok ts ∧ IsExpression maxDepth ts tree ∧ tree.height ≤ maxDepth := by
  unfold parse
  cases scanned : Token.scan base text with
  | error e => exact ⟨nofun, fun ⟨_, h, _⟩ => nomatch h⟩
  | ok ts =>
    exact ofTokens_eq_ok_iff.trans ⟨fun h => ⟨ts, rfl, h⟩, fun ⟨_, h, h'⟩ => by cases h; exact h'⟩

theorem height_le_of_parse (h : parse base text = .ok tree) : tree.height ≤ maxDepth := by
  obtain ⟨ts, -, -, low⟩ := parse_eq_ok_iff.mp h
  exact low

theorem grounded_of_scan (scanned : Token.scan base text = .ok ts) : ∀ t ∈ ts, t.Grounded base := by
  intro t ht
  obtain ⟨ls, -, sense⟩ := Lexeme.exists_lexemes_of_scan scanned
  have : some t ∈ ls.map (Lexeme.sense? base) := sense ▸ List.mem_map_of_mem ht
  obtain ⟨l, -, hl⟩ := List.mem_map.mp this
  exact Lexeme.grounded hl

theorem formed_of_parse (h : parse base text = .ok tree) : tree.Formed base := by
  obtain ⟨ts, scanned, isExpression, -⟩ := parse_eq_ok_iff.mp h
  exact (closed_formed base).expression isExpression (grounded_of_scan scanned)

theorem ne_empty_of_parse (h : parse base text = .ok tree) : text ≠ "" := by
  intro same
  subst same
  obtain ⟨ts, scanned, isExpression, -⟩ := parse_eq_ok_iff.mp h
  have none : Token.scan base "" = .ok [] := Lexeme.scan_of_spells .nil rfl
  rw [none] at scanned
  cases scanned
  exact (closed_apart.expression isExpression).2 rfl

theorem parse_sublist {left : String} (h : parse base text = .ok tree)
    (sub : left.toList.Sublist text.toList) (same : Text.strip left = Text.strip text) :
    parse base left = .ok tree := by
  obtain ⟨ts, scanned, isExpression, low⟩ := parse_eq_ok_iff.mp h
  obtain ⟨ls, consists, sense⟩ := Lexeme.exists_lexemes_of_scan scanned
  have apart : (ls.map (Lexeme.sense? base)).IsChain fun a b =>
      ∃ t u, a = some t ∧ b = some u ∧ Apart t u := by
    rw [sense, List.isChain_map]
    exact (closed_apart.expression isExpression).1.imp fun t u h => ⟨t, u, rfl, rfl, h⟩
  have spells : Lexeme.Spells left.toList ls := by
    refine (consists.sublist sub (String.ofList_injective same)).spells
      (((List.isChain_map _).mp apart).imp ?_)
    intro l m touch
    obtain ⟨t, u, hl, hm, apart⟩ := touch
    rcases apart with ⟨c, kind⟩ | ⟨c, kind⟩
    · exact .inl ⟨c, Lexeme.eq_mark_of_kind hl kind⟩
    · exact .inr ⟨c, Lexeme.eq_mark_of_kind hm kind⟩
  exact parse_eq_ok_iff.mpr ⟨ts, Lexeme.scan_of_spells spells sense, isExpression, low⟩

theorem strip_sublist (text : String) : (Text.strip text).toList.Sublist text.toList := by
  rw [Text.strip, String.toList_ofList]
  exact List.filter_sublist

theorem parse_strip (h : parse base text = .ok tree) : parse base (Text.strip text) = .ok tree :=
  parse_sublist h (strip_sublist text) (Text.strip_strip text)

/-- **Blanks.** A text that is parsed may lose all its blanks, or any of them, and still be parsed
as the same tree: no two tokens that may stand side by side in a formula run into one another. -/
theorem parse_without_blanks (h : parse base text = .ok tree) :
    parse base (Text.strip text) = .ok tree ∧
      ∀ left : String, left.toList.Sublist text.toList → Text.strip left = Text.strip text →
        parse base left = .ok tree :=
  ⟨parse_strip h, fun _ => parse_sublist h⟩

/-- A formula with blanks of three kinds, without any of them and without some. -/
theorem parse_without_blanks_call :
    ∃ tree, parse ⟨1, 0⟩ " - a1 *\tmax(2\u00a0, $b$3) " = .ok tree ∧
      parse ⟨1, 0⟩ "-a1*max(2,$b$3)" = .ok tree ∧
      parse ⟨1, 0⟩ "- a1*max(2\u00a0,$b$3)" = .ok tree := by
  have ok : (parse ⟨1, 0⟩ " - a1 *\tmax(2\u00a0, $b$3) ").toOption.isSome = true := by
    decide +kernel
  cases parsed : parse ⟨1, 0⟩ " - a1 *\tmax(2\u00a0, $b$3) " with
  | error e => rw [parsed] at ok; cases ok
  | ok tree =>
    have stripped : Text.strip " - a1 *\tmax(2\u00a0, $b$3) " = "-a1*max(2,$b$3)" := by
      decide +kernel
    obtain ⟨all, some⟩ := parse_without_blanks parsed
    exact ⟨tree, rfl, stripped ▸ all, some _ (by decide +kernel) (by decide +kernel)⟩

end Expr

end Worksheet
