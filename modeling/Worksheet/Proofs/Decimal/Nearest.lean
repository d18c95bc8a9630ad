import Mathlib.Algebra.Order.Field.Power
import Mathlib.Tactic.FieldSimp
import Mathlib.Tactic.Linarith
import Mathlib.Tactic.NormNum
import Mathlib.Tactic.Positivity
import Mathlib.Tactic.Ring
import Worksheet.Decimal.Nearest

/-!
# What rounds to a number

A finite magnitude stands for a significand and an exponent, of which every number has one pair
(`Canonical`). The fractions between the points half way to the next numbers on either side round to
it, the points themselves if the significand is even (`Around`). Below a power of two the next
number is half as far, and a fraction on that side is rounded with a smaller exponent and carried
back.

Results:
* `log2Floor_spec`: the exponent of the leading bit of a fraction.
* `roundEven_eq`: the whole number nearest to a fraction.
* `canonical_ofMagnitude`: what a finite magnitude stands for.
* `nearest_eq`: the fractions around a number round to it.
* `magnitude_eq`: the decimals around a number are read as it.
-/
namespace Worksheet

/-! ## Powers with signed exponents -/

theorem zpow_mul_pow_toNat {b : ℚ} (hb : b ≠ 0) (e : ℤ) : b ^ e * b ^ (-e).toNat = b ^ e.toNat := by
  rcases le_total 0 e with h | h
  · have none : (-e).toNat = 0 := by omega
    rw [none, pow_zero, mul_one, ← zpow_natCast, Int.toNat_of_nonneg h]
  · have none : e.toNat = 0 := by omega
    rw [none, pow_zero, ← zpow_natCast, Int.toNat_of_nonneg (by omega), ← zpow_add₀ hb,
      add_neg_cancel, zpow_zero]

/-- A fraction and a power as whole numbers of one small unit. -/
theorem exists_scale {b den : Nat} (hb : 0 < b) (hden : 0 < den) (num : Nat) (e : ℤ) :
    ∃ k : ℚ, 0 < k ∧ ((num * Nat.pow b (-e).toNat : Nat) : ℚ) = num / den * k ∧
      ((den * Nat.pow b e.toNat : Nat) : ℚ) = (b : ℚ) ^ e * k := by
  have base : (0 : ℚ) < b := by exact_mod_cast hb
  have den_pos : (0 : ℚ) < den := by exact_mod_cast hden
  refine ⟨den * (b : ℚ) ^ (-e).toNat, by positivity, ?_, ?_⟩
  · rw [Nat.pow_eq]
    push_cast
    field_simp
  · rw [mul_left_comm, zpow_mul_pow_toNat base.ne', Nat.pow_eq]
    push_cast
    rfl

theorem scaled_le_iff {b den : Nat} (hb : 0 < b) (hden : 0 < den) (num : Nat) (e : ℤ) :
    den * Nat.pow b e.toNat ≤ num * Nat.pow b (-e).toNat ↔ (b : ℚ) ^ e ≤ num / den := by
  obtain ⟨k, pos, fraction, power⟩ := exists_scale hb hden num e
  rw [← Nat.cast_le (α := ℚ), fraction, power, mul_le_mul_iff_left₀ pos]

namespace Binary64

variable {num den s : Nat}

theorem zpow_log2_le (h : 0 < num) : (2 : ℚ) ^ (num.log2 : ℤ) ≤ num := by
  rw [zpow_natCast]
  exact_mod_cast Nat.log2_self_le h.ne'

theorem lt_zpow_log2 (num : Nat) : (num : ℚ) < 2 ^ ((num.log2 : ℤ) + 1) := by
  rw [← Nat.cast_succ, zpow_natCast]
  exact_mod_cast Nat.lt_log2_self

theorem log2Floor_spec (hnum : 0 < num) (hden : 0 < den) :
    (2 : ℚ) ^ log2Floor num den ≤ num / den ∧ (num : ℚ) / den < 2 ^ (log2Floor num den + 1) := by
  have den_pos : (0 : ℚ) < den := by exact_mod_cast hden
  have low := scaled_le_iff Nat.two_pos hden num (num.log2 - den.log2)
  have below : (2 : ℚ) ^ ((num.log2 : ℤ) - den.log2 - 1) ≤ num / den := by
    rw [le_div_iff₀ den_pos]
    calc (2 : ℚ) ^ ((num.log2 : ℤ) - den.log2 - 1) * den
        ≤ 2 ^ ((num.log2 : ℤ) - den.log2 - 1) * 2 ^ ((den.log2 : ℤ) + 1) :=
          mul_le_mul_of_nonneg_left (lt_zpow_log2 den).le (by positivity)
      _ = 2 ^ (num.log2 : ℤ) := by rw [← zpow_add₀ two_ne_zero]; congr 1; ring
      _ ≤ num := zpow_log2_le hnum
  have above : (num : ℚ) / den < 2 ^ ((num.log2 : ℤ) - den.log2 + 1) := by
    rw [div_lt_iff₀ den_pos]
    calc (num : ℚ) < 2 ^ ((num.log2 : ℤ) + 1) := lt_zpow_log2 num
      _ = 2 ^ ((num.log2 : ℤ) - den.log2 + 1) * 2 ^ (den.log2 : ℤ) := by
          rw [← zpow_add₀ two_ne_zero]; congr 1; ring
      _ ≤ 2 ^ ((num.log2 : ℤ) - den.log2 + 1) * den :=
          mul_le_mul_of_nonneg_left (zpow_log2_le hden) (by positivity)
  unfold log2Floor
  dsimp only
  split
  · next h => exact ⟨by exact_mod_cast low.mp h, above⟩
  · next h =>
    rw [sub_add_cancel]
    refine ⟨below, ?_⟩
    have := mt low.mpr h
    push_cast at this
    exact lt_of_not_ge this

/-- A fraction within half a unit of a whole number rounds to it, at the ends if it is even. -/
theorem roundEven_eq (hden : 0 < den) (low : 2 * s * den ≤ 2 * num + den)
    (high : 2 * num ≤ 2 * s * den + den)
    (odd : s % 2 = 1 → 2 * s * den ≠ 2 * num + den ∧ 2 * num ≠ 2 * s * den + den) :
    roundEven num den = s := by
  have split := Nat.div_add_mod num den
  have rest := Nat.mod_lt num hden
  unfold roundEven
  generalize num / den = quotient at split ⊢
  generalize num % den = r at split rest ⊢
  subst split
  have notMore : quotient ≤ s := by
    refine Nat.le_of_not_lt fun more => ?_
    have : den * (s + 1) ≤ den * quotient := Nat.mul_le_mul_left den more
    have grow : den * (s + 1) = s * den + den := by ring
    have same : 2 * s * den = 2 * (s * den) := by ring
    omega
  have notLess : s ≤ quotient + 1 := by
    refine Nat.le_of_not_lt fun less => ?_
    have : den * (quotient + 2) ≤ den * s := Nat.mul_le_mul_left den less
    have grow : den * (quotient + 2) = den * quotient + 2 * den := by ring
    have same : 2 * s * den = 2 * (den * s) := by ring
    omega
  rcases Nat.eq_or_lt_of_le notLess with rfl | less
  · have same : 2 * (quotient + 1) * den = 2 * (den * quotient) + 2 * den := by ring
    rw [if_neg]
    omega
  · obtain rfl : quotient = s := by omega
    have same : 2 * quotient * den = 2 * (den * quotient) := by ring
    rw [if_pos]
    omega

/-! ## Numbers of the format -/

/-- The significand has no more than 53 bits, and it has all of them unless the exponent is the
least. -/
structure Canonical (s : Nat) (e : ℤ) : Prop where
  significand_lt : s < 2 ^ 53
  least_le : -1074 ≤ e
  le_greatest : e ≤ 971
  normal : e = -1074 ∨ 2 ^ 52 ≤ s

/-- The place of a number among those of the format. -/
def place (s : Nat) (e : ℤ) : Nat := (e + 1074).toNat * 2 ^ 52 + s

theorem Canonical.place_lt {e : ℤ} (h : Canonical s e) : place s e < infinity := by
  have most : infinity = 2047 * 2 ^ 52 := rfl
  have := h.significand_lt
  have := h.le_greatest
  unfold place
  omega

theorem canonical_ofMagnitude {m : Nat} (h : m < infinity) :
    ∃ s e, ofMagnitude false m = .finite false s e ∧ Canonical s e ∧ place s e = m := by
  have most : infinity = 2047 * 2 ^ 52 := rfl
  have split := Nat.div_add_mod m (2 ^ 52)
  have rest : m % 2 ^ 52 < 2 ^ 52 := Nat.mod_lt m (Nat.two_pow_pos 52)
  have notLast : m / 2 ^ 52 ≠ 2047 := by omega
  unfold ofMagnitude
  show ∃ s e, (if m / 2 ^ 52 = 2047 then (if m % 2 ^ 52 = 0 then .infinite false else .notNumber)
    else if m / 2 ^ 52 = 0 then .finite false (m % 2 ^ 52) (-1074)
    else .finite false (2 ^ 52 + m % 2 ^ 52) (-1074 + ((m / 2 ^ 52 : Nat) - 1))) =
      Binary64.finite false s e ∧ _
  rw [if_neg notLast]
  split
  · next zero =>
    refine ⟨_, _, rfl, ⟨by omega, le_rfl, by omega, .inl rfl⟩, ?_⟩
    unfold place
    omega
  · next pos =>
    refine ⟨_, _, rfl, ⟨by omega, by omega, by omega, .inr (by omega)⟩, ?_⟩
    unfold place
    omega

/-! ## What rounds to a number -/

/-- The point half way to the next number below, in quarters of a unit. -/
def lowQuarters (s : Nat) (e : ℤ) : Nat := 4 * s - if s = leadingBit ∧ leastExponent < e then 1 else 2

/-- The fraction lies between the points half way to the next numbers, and at neither of them if the
significand is odd. -/
structure Around (s : Nat) (e : ℤ) (q : ℚ) : Prop where
  low : lowQuarters s e * 2 ^ (e - 2) ≤ q
  high : q ≤ (4 * s + 2 : Nat) * 2 ^ (e - 2)
  odd : s % 2 = 1 → lowQuarters s e * 2 ^ (e - 2) ≠ q ∧ q ≠ (4 * s + 2 : Nat) * 2 ^ (e - 2)

variable {e : ℤ} {q : ℚ}

theorem lowQuarters_ge (s : Nat) (e : ℤ) : 4 * s - 2 ≤ lowQuarters s e := by
  unfold lowQuarters
  split <;> omega

theorem lowQuarters_of_odd (h : s % 2 = 1) : lowQuarters s e = 4 * s - 2 := by
  have even : leadingBit % 2 = 0 := rfl
  unfold lowQuarters
  rw [if_neg]
  intro holds
  obtain ⟨rfl, -⟩ := holds
  omega

theorem Around.pos (h : Around s e q) (hs : 0 < s) : 0 < q := by
  have quarters : 0 < lowQuarters s e := Nat.lt_of_lt_of_le (by omega) (lowQuarters_ge s e)
  have : (0 : ℚ) < lowQuarters s e := by exact_mod_cast quarters
  exact lt_of_lt_of_le (by positivity) h.low

theorem roundEven_scaled (hden : 0 < den) (low : (4 * s - 2 : ℚ) * 2 ^ (e - 2) ≤ num / den)
    (high : (num / den : ℚ) ≤ (4 * s + 2) * 2 ^ (e - 2))
    (odd : s % 2 = 1 → (4 * s - 2 : ℚ) * 2 ^ (e - 2) ≠ num / den ∧
      (num / den : ℚ) ≠ (4 * s + 2) * 2 ^ (e - 2)) :
    roundEven (num * Nat.pow 2 (-e).toNat) (den * Nat.pow 2 e.toNat) = s := by
  obtain ⟨k, pos, fraction, power⟩ := exists_scale Nat.two_pos hden num e
  have quarter : ((2 : Nat) : ℚ) ^ e = 4 * 2 ^ (e - 2) := by
    rw [zpow_sub₀ two_ne_zero]
    norm_num
    ring
  rw [quarter] at power
  have scale : 0 < den * Nat.pow 2 e.toNat := Nat.mul_pos hden (Nat.pow_pos Nat.two_pos)
  generalize num * Nat.pow 2 (-e).toNat = n at fraction ⊢
  generalize den * Nat.pow 2 e.toNat = d at power scale ⊢
  generalize (num / den : ℚ) = q at *
  generalize (2 : ℚ) ^ (e - 2) = u at *
  refine roundEven_eq scale ?_ ?_ fun h => ⟨fun same => ?_, fun same => ?_⟩
  · have := mul_le_mul_of_nonneg_right low pos.le
    rw [← Nat.cast_le (α := ℚ)]
    push_cast
    rw [fraction, power]
    linarith
  · have := mul_le_mul_of_nonneg_right high pos.le
    rw [← Nat.cast_le (α := ℚ)]
    push_cast
    rw [fraction, power]
    linarith
  · refine (odd h).1 (mul_right_cancel₀ pos.ne' ?_)
    have := congrArg (Nat.cast : Nat → ℚ) same
    push_cast at this
    rw [fraction, power] at this
    linarith
  · refine (odd h).2 (mul_right_cancel₀ pos.ne' ?_)
    have := congrArg (Nat.cast : Nat → ℚ) same
    push_cast at this
    rw [fraction, power] at this
    linarith

theorem zpow_split {a b : ℤ} {k : Nat} (h : a = b + k) :
    (2 : ℚ) ^ a = (2 ^ k : Nat) * 2 ^ b := by
  rw [h, zpow_add₀ two_ne_zero, zpow_natCast, mul_comm]
  push_cast
  rfl

theorem lt_of_zpow_lt {a b : ℤ} (h : (2 : ℚ) ^ a < 2 ^ b) : a < b :=
  (zpow_lt_zpow_iff_right₀ one_lt_two).mp h

/-- Away from the power of two below it, a number has the exponent of what rounds to it. -/
theorem exponent_eq (canonical : Canonical s e) (hnum : 0 < num) (hden : 0 < den)
    (around : Around s e (num / den)) (above : e = -1074 ∨ (2 : ℚ) ^ (e + 52) ≤ num / den) :
    max (log2Floor num den - 52) leastExponent = e := by
  obtain ⟨floor, ceiling⟩ := log2Floor_spec hnum hden
  have least : leastExponent = -1074 := rfl
  have notMore : log2Floor num den < e + 53 := by
    refine lt_of_zpow_lt (floor.trans_lt (around.high.trans_lt ?_))
    have small : 4 * s + 2 < 2 ^ 55 := by have := canonical.significand_lt; omega
    calc ((4 * s + 2 : Nat) : ℚ) * 2 ^ (e - 2) < (2 ^ 55 : Nat) * 2 ^ (e - 2) :=
          mul_lt_mul_of_pos_right (by exact_mod_cast small) (by positivity)
      _ = 2 ^ (e + 53) := (zpow_split (by omega)).symm
  rcases above with rfl | above
  · omega
  · have := lt_of_zpow_lt (above.trans_lt ceiling)
    have := canonical.least_le
    omega

/-- Just below the least number of an exponent, a fraction has the exponent before. -/
theorem exponent_eq_sub_one (canonical : Canonical s e) (hnum : 0 < num) (hden : 0 < den)
    (around : Around s e (num / den)) (greater : -1074 < e)
    (below : (num / den : ℚ) < 2 ^ (e + 52)) :
    s = 2 ^ 52 ∧ max (log2Floor num den - 52) leastExponent = e - 1 := by
  obtain ⟨floor, ceiling⟩ := log2Floor_spec hnum hden
  have least : leastExponent = -1074 := rfl
  have lead : leadingBit = 2 ^ 52 := rfl
  have whole : (2 : ℚ) ^ (e + 52) = (2 ^ 54 : Nat) * 2 ^ (e - 2) := zpow_split (by omega)
  have half : (2 : ℚ) ^ (e + 51) = (2 ^ 53 : Nat) * 2 ^ (e - 2) := zpow_split (by omega)
  have fewer : lowQuarters s e < 2 ^ 54 := by
    have := around.low.trans_lt below
    rw [whole, mul_lt_mul_iff_left₀ (by positivity)] at this
    exact_mod_cast this
  have enough := canonical.normal.resolve_left greater.ne'
  have same : s = 2 ^ 52 := by have := lowQuarters_ge s e; omega
  subst same
  refine ⟨rfl, ?_⟩
  have atLeast : (2 : ℚ) ^ (e + 51) ≤ num / den := by
    refine le_trans ?_ around.low
    rw [half]
    refine mul_le_mul_of_nonneg_right ?_ (by positivity)
    have := lowQuarters_ge (2 ^ 52) e
    exact_mod_cast (show 2 ^ 53 ≤ lowQuarters (2 ^ 52) e by omega)
  have := lt_of_zpow_lt (floor.trans_lt below)
  have := lt_of_zpow_lt (atLeast.trans_lt ceiling)
  omega

/-- With the exponent of the number the significand is that of the number. -/
theorem roundEven_around (hs : 0 < s) (hden : 0 < den) (around : Around s e (num / den)) :
    roundEven (num * Nat.pow 2 (-e).toNat) (den * Nat.pow 2 e.toNat) = s := by
  have high := around.high
  have odd := around.odd
  have low : (4 * s - 2 : ℚ) * 2 ^ (e - 2) ≤ num / den := by
    refine le_trans (mul_le_mul_of_nonneg_right ?_ (by positivity)) around.low
    have quarters : 4 * s ≤ lowQuarters s e + 2 := by have := lowQuarters_ge s e; omega
    have : (4 * s : ℚ) ≤ lowQuarters s e + 2 := by exact_mod_cast quarters
    linarith
  push_cast at high odd
  refine roundEven_scaled hden low high fun h => ?_
  have quarters : ((lowQuarters s e : Nat) : ℚ) = 4 * s - 2 := by
    rw [lowQuarters_of_odd h, Nat.cast_sub (by omega)]
    push_cast
    rfl
  have := odd h
  rwa [quarters] at this

/-- With the exponent before, the significand has a bit too many. -/
theorem roundEven_below (hden : 0 < den) (around : Around (2 ^ 52) e (num / den))
    (greater : -1074 < e) (below : (num / den : ℚ) < 2 ^ (e + 52)) :
    roundEven (num * Nat.pow 2 (-(e - 1)).toNat) (den * Nat.pow 2 (e - 1).toNat) = 2 ^ 53 := by
  have low := around.low
  have half : (2 : ℚ) ^ (e - 2) = (2 ^ 1 : Nat) * 2 ^ (e - 1 - 2) := zpow_split (by omega)
  have whole : (2 : ℚ) ^ (e + 52) = (2 ^ 55 : Nat) * 2 ^ (e - 1 - 2) := zpow_split (by omega)
  have quarters : lowQuarters (2 ^ 52) e = 2 ^ 54 - 1 := by
    unfold lowQuarters
    rw [if_pos ⟨rfl, greater⟩]
    norm_num
  have pos : (0 : ℚ) < 2 ^ (e - 1 - 2) := by positivity
  rw [quarters, half] at low
  rw [whole] at below
  refine roundEven_scaled hden (le_trans (le_of_eq ?_) low) ?_ fun h => ?_
  · push_cast
    ring
  · push_cast at below ⊢
    linarith
  · exact absurd h (by decide)

/-- **Nearest.** The fractions around a number round to its place. -/
theorem nearest_eq (canonical : Canonical s e) (hs : 0 < s) (hden : 0 < den)
    (around : Around s e (num / den)) : nearest num den = place s e := by
  have hnum : 0 < num := by
    refine Nat.pos_of_ne_zero fun zero => ?_
    have := around.pos hs
    rw [zero, Nat.cast_zero, zero_div] at this
    exact this.false
  have finite := canonical.place_lt
  have least : leastExponent = -1074 := rfl
  have lead : leadingBit = 2 ^ 52 := rfl
  have := canonical.least_le
  unfold nearest
  rw [if_neg hnum.ne']
  dsimp only
  by_cases above : e = -1074 ∨ (2 : ℚ) ^ (e + 52) ≤ num / den
  · have whole : (e - leastExponent).toNat * leadingBit + s = place s e := by
      rw [least, lead, sub_neg_eq_add, place]
    rw [exponent_eq canonical hnum hden around above, roundEven_around hs hden around, whole,
      Nat.min_eq_left finite.le]
  · obtain ⟨greater, below⟩ := not_or.mp above
    have greater : -1074 < e := by omega
    have below := not_le.mp below
    obtain ⟨same, exponent⟩ := exponent_eq_sub_one canonical hnum hden around greater below
    subst same
    -- The bit too many is carried into the exponent field.
    have carried : (e - 1 - leastExponent).toNat * leadingBit + 2 ^ 53 = place (2 ^ 52) e := by
      rw [least, lead, place]
      omega
    rw [exponent, roundEven_below hden around greater below, carried, Nat.min_eq_left finite.le]

end Binary64

/-! ## Decimals -/

namespace Decimal

open Binary64 (Canonical Around place)

variable {d : Decimal} {s : Nat} {e : ℤ}

def toRat (d : Decimal) : ℚ := d.digits * 10 ^ d.exponent

/-- What rounds to a finite number is less than the decimals that are taken for infinite. -/
theorem toRat_lt (canonical : Canonical s e) (around : Around s e d.toRat) :
    d.toRat < 2 ^ (1024 : ℤ) := by
  have small : 4 * s + 2 < 2 ^ 55 := by have := canonical.significand_lt; omega
  calc d.toRat ≤ (4 * s + 2 : Nat) * 2 ^ (e - 2) := around.high
    _ < (2 ^ 55 : Nat) * 2 ^ (e - 2) :=
        mul_lt_mul_of_pos_right (by exact_mod_cast small) (by positivity)
    _ = 2 ^ (e + 53) := (Binary64.zpow_split (by omega)).symm
    _ ≤ 2 ^ (1024 : ℤ) := zpow_le_zpow_right₀ one_le_two (by have := canonical.le_greatest; omega)

/-- What rounds to a positive number is greater than the decimals that are taken for zero. -/
theorem le_toRat (canonical : Canonical s e) (hs : 0 < s) (around : Around s e d.toRat) :
    2 ^ (-1076 : ℤ) ≤ d.toRat := by
  have some_ : 1 ≤ Binary64.lowQuarters s e := by
    have := Binary64.lowQuarters_ge s e
    omega
  calc (2 : ℚ) ^ (-1076 : ℤ) ≤ 2 ^ (e - 2) :=
        zpow_le_zpow_right₀ one_le_two (by have := canonical.least_le; omega)
    _ = (1 : Nat) * 2 ^ (e - 2) := by rw [Nat.cast_one, one_mul]
    _ ≤ Binary64.lowQuarters s e * 2 ^ (e - 2) :=
        mul_le_mul_of_nonneg_right (by exact_mod_cast some_) (by positivity)
    _ ≤ d.toRat := around.low

theorem two_pow_le_ten_pow {m n k : Nat} (hm : m ≤ 205 * k) (hn : 62 * k ≤ n) : 2 ^ m ≤ 10 ^ n :=
  calc 2 ^ m ≤ (2 ^ 205) ^ k := by
        rw [← Nat.pow_mul]
        exact Nat.pow_le_pow_right Nat.two_pos hm
    _ ≤ (10 ^ 62) ^ k := Nat.pow_le_pow_left (by norm_num) k
    _ ≤ 10 ^ n := by
        rw [← Nat.pow_mul]
        exact Nat.pow_le_pow_right (by omega) hn

/-- Three binary places are less than a decimal one. -/
theorem div_ten_pow_lt {n m k : Nat} (h : n.log2 + 1 + k ≤ 3 * m) :
    (n : ℚ) / (10 ^ m : Nat) < 2 ^ (-k : ℤ) := by
  have eight : 2 ^ (3 * m) ≤ 10 ^ m := by
    rw [Nat.pow_mul]
    exact Nat.pow_le_pow_left (by omega) m
  have less : 2 ^ k * n < 10 ^ m :=
    calc 2 ^ k * n < 2 ^ k * 2 ^ (n.log2 + 1) :=
          Nat.mul_lt_mul_of_pos_left Nat.lt_log2_self (Nat.two_pow_pos k)
      _ = 2 ^ (n.log2 + 1 + k) := by rw [Nat.mul_comm, ← Nat.pow_add]
      _ ≤ 2 ^ (3 * m) := Nat.pow_le_pow_right Nat.two_pos h
      _ ≤ 10 ^ m := eight
  rw [div_lt_iff₀ (by positivity), zpow_neg, lt_inv_mul_iff₀ (by positivity), zpow_natCast]
  exact_mod_cast less

/-- A decimal that is taken for infinite is not around a number. -/
theorem lt_of_mul_ten_pow_lt {digits n : Nat} (pos : digits ≠ 0)
    (less : digits * 10 ^ n < 2 ^ 1024) : n < 310 := by
  refine Nat.lt_of_not_le fun large => ?_
  have power : 2 ^ 1024 ≤ 10 ^ n := two_pow_le_ten_pow (k := 5) (by omega) large
  have more : 10 ^ n ≤ digits * 10 ^ n := Nat.le_mul_of_pos_left _ (Nat.pos_of_ne_zero pos)
  exact absurd less (not_lt.mpr (power.trans more))

/-- **Reading.** A decimal around a number is read as that number. -/
theorem magnitude_eq (canonical : Canonical s e) (hs : 0 < s) (around : Around s e d.toRat) :
    d.magnitude = place s e := by
  have pos := around.pos hs
  have high := toRat_lt canonical around
  have low := le_toRat canonical hs around
  obtain ⟨digits, exponent⟩ := d
  unfold magnitude
  cases exponent with
  | ofNat n =>
    have whole : toRat ⟨digits, Int.ofNat n⟩ = (digits * Nat.pow 10 n : Nat) / (1 : Nat) := by
      rw [toRat, Nat.pow_eq]
      push_cast
      rw [div_one, Int.ofNat_eq_natCast, zpow_natCast]
    rw [whole] at pos around high
    have nonzero : digits ≠ 0 := by
      intro same
      subst same
      rw [Nat.zero_mul, Nat.cast_zero, zero_div] at pos
      exact pos.false
    have notLarge : ¬ 310 ≤ n := by
      rw [Nat.cast_one, div_one, Nat.pow_eq] at high
      exact Nat.not_le.mpr (lt_of_mul_ten_pow_lt nonzero (by exact_mod_cast high))
    dsimp only
    rw [if_neg nonzero, if_neg notLarge]
    exact Binary64.nearest_eq canonical hs Nat.one_pos around
  | negSucc n =>
    have part : toRat ⟨digits, Int.negSucc n⟩ = digits / (Nat.pow 10 (n + 1) : Nat) := by
      rw [toRat, Nat.pow_eq, zpow_negSucc]
      push_cast
      rw [div_eq_mul_inv]
    rw [part] at pos around low
    have notSmall : ¬ digits.log2 + 1077 ≤ 3 * (n + 1) := by
      intro small
      have less : (digits : ℚ) / (10 ^ (n + 1) : Nat) < 2 ^ (-(1076 : Nat) : ℤ) :=
        div_ten_pow_lt (by omega)
      exact absurd low (not_le.mpr less)
    dsimp only
    rw [if_neg notSmall]
    exact Binary64.nearest_eq canonical hs (Nat.pow_pos (by omega)) around

end Decimal

end Worksheet
