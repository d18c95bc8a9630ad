import Worksheet.Decimal.Basic
import Worksheet.Decimal.Binary64

/-!
# The number a decimal stands for

A decimal is read as the nearest number of the 64-bit binary format. A decimal of `10 ^ 310` or more
is infinite there, and one below half of the least positive number is zero, so powers of ten that
large are never computed.
-/
namespace Worksheet.Decimal

def magnitude (d : Decimal) : Nat :=
  match d.exponent with
  | .ofNat e =>
    if d.digits = 0 then 0
    else if 310 ≤ e then Binary64.infinity
    else Binary64.nearest (d.digits * Nat.pow 10 e) 1
  | .negSucc e =>
    if d.digits.log2 + 1077 ≤ 3 * (e + 1) then 0
    else Binary64.nearest d.digits (Nat.pow 10 (e + 1))

def toFloat (d : Decimal) : Float := Float.ofBits (UInt64.ofNat d.magnitude)

end Worksheet.Decimal
