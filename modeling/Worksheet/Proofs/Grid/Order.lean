import Worksheet.Grid.Order
import Worksheet.Proofs.Grid.Address

/-!
# The order of names

Cells are listed by their columns and by the characters of their row numerals. On the grid the
columns have the letters of the alphabet in order, so this is the order of the names as text.

Results:
* `Position.order_eq_lt_iff`: which of two cells of the grid is listed first.
-/
namespace Worksheet

/-- Lists of characters are compared as texts are. -/
theorem compare_chars_eq_lt_iff {cs ds : List Char} : compare cs ds = .lt ↔ cs < ds := by
  induction cs generalizing ds with
  | nil => cases ds <;> simp
  | cons c cs ih =>
    cases ds with
    | nil => simp
    | cons d ds =>
      have first : compare c d = .lt ↔ c < d := compareOfLessAndEq_eq_lt
      have same : compare c d = .eq ↔ c = d := Std.LawfulEqCmp.compare_eq_iff_eq
      rw [List.compare_cons_cons, Ordering.then_eq_lt, first, same, ih, List.cons_lt_cons_iff]

theorem toNat_letter {col : UInt64} (h : col.toNat < columnCount) :
    (Position.letter col).toNat = 'a'.toNat + col.toNat := by
  have each : ∀ n : Fin columnCount,
      (Position.letter (.ofNat n)).toNat = 'a'.toNat + (UInt64.ofNat n).toNat := by decide
  have := each ⟨col.toNat, h⟩
  rwa [UInt64.ofNat_toNat] at this

namespace Position

variable {p q : Position}

/-- Of two cells of the grid the one whose name comes first as text is listed first. -/
theorem order_eq_lt_iff (hp : p.OnGrid) (hq : q.OnGrid) : order p q = .lt ↔ p.name < q.name := by
  have first : compare p.col q.col = .lt ↔ letter p.col < letter q.col := by
    rw [Std.compare_eq_lt, UInt64.lt_iff_toNat_lt, Char.lt_def, UInt32.lt_iff_toNat_lt]
    have := toNat_letter hp.1
    have := toNat_letter hq.1
    unfold Char.toNat at *
    omega
  have same : compare p.col q.col = .eq ↔ letter p.col = letter q.col := by
    rw [Std.LawfulEqCmp.compare_eq_iff_eq]
    refine ⟨congrArg letter, fun letters => ?_⟩
    have := congrArg Char.toNat letters
    rw [toNat_letter hp.1, toNat_letter hq.1] at this
    exact UInt64.toNat_inj.mp (Nat.add_left_cancel this)
  have names : p.name < q.name ↔ letter p.col :: numeral p.row < letter q.col :: numeral q.row := by
    rw [name, name, String.lt_iff, String.toList_ofList, String.toList_ofList]
  rw [names, List.cons_lt_cons_iff, order, compareLex, Ordering.then_eq_lt, compareOn, compareOn,
    first, same, compare_chars_eq_lt_iff]

end Position

end Worksheet
