import Worksheet.Grid.Position
import Std.Data.ExtTreeMap
import Std.Data.ExtTreeSet

/-!
# The order of cells

Cells are listed in the order of their names as text: by column letter, then by the row numeral
character by character, so that `a10` stands before `a2`.

Results:
* `Position.order` is a linear order (the two instances).
-/
namespace Worksheet

namespace Position

/-- The order of names as text. -/
def order : Position → Position → Ordering :=
  compareLex (compareOn Position.col) (compareOn fun p => numeral p.row)

theorem numeral_inj {m n : UInt64} (h : numeral m = numeral n) : m = n := by
  have := congrArg (Nat.ofDigitChars 10 · 0) h
  simp only [numeral, Nat.ofDigitChars_ten_toDigits] at this
  rw [← UInt64.add_sub_cancel m 1, UInt64.toNat_inj.mp this, UInt64.add_sub_cancel]

instance : Std.TransCmp order :=
  inferInstanceAs (Std.TransCmp (compareLex (compareOn Position.col) (compareOn fun p => numeral p.row)))

instance : Std.LawfulEqCmp order where
  eq_of_compare {p q} h := by
    obtain ⟨hc, hr⟩ := compareLex_eq_eq.mp h
    have hc := Std.LawfulEqOrd.eq_of_compare hc
    have hr := numeral_inj (Std.LawfulEqOrd.eq_of_compare hr)
    cases p; cases q; simp_all

end Position

abbrev PositionSet := Std.ExtTreeSet Position Position.order

abbrev PositionMap (α : Type) := Std.ExtTreeMap Position α Position.order

end Worksheet
