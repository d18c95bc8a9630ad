import Worksheet.Decimal.Shortest
import Worksheet.Proofs.Decimal.Nearest

/-!
# Reading back the shortest decimal

The decimals that a rounding tries are compared with its interval in whole numbers; here the
interval is one of fractions (`Contains`), which no change of unit moves. If the interval is wider
than the unit of the last place then one of the two neighbours with that place lies in it, and with
seventeen digits it is. So a shortest decimal is always found, and it is read as the number it was
made from.

Results:
* `contains_atPlace`: the interval in units of a power of ten.
* `exists_pick`: a unit less than the width of the interval has a decimal in it.
* `contains_shortest`: the shortest decimal lies in the interval.
* `magnitude_shortest`: the shortest decimal of a number is read as that number.
-/
namespace Worksheet.Rounding

open Binary64 (Canonical Around place)

variable {r : Rounding} {tie : Tie} {n s : Nat} {e : ℤ} {q : ℚ}

/-! ## The interval -/

structure Contains (r : Rounding) (q : ℚ) : Prop where
  low : r.low ≤ q * r.unit
  high : q * r.unit ≤ r.high
  inside : r.closed = false → r.low ≠ q * r.unit ∧ q * r.unit ≠ r.high

theorem contains_of_holds (h : r.holds n = true) : r.Contains n := by
  unfold holds at h
  split at h
  · next closed =>
    obtain ⟨low, high⟩ := Bool.and_eq_true_iff.mp h
    exact ⟨by exact_mod_cast of_decide_eq_true low, by exact_mod_cast of_decide_eq_true high,
      fun open_ => absurd closed (by simp [open_])⟩
  · obtain ⟨low, high⟩ := Bool.and_eq_true_iff.mp h
    have low := of_decide_eq_true low
    have high := of_decide_eq_true high
    exact ⟨by exact_mod_cast low.le, by exact_mod_cast high.le,
      fun _ => ⟨by exact_mod_cast low.ne, by exact_mod_cast high.ne⟩⟩

/-- The interval does not depend on the unit it is counted in. -/
theorem contains_atPlace {p : ℤ} (h : (r.atPlace p).Contains q) : r.Contains (q * 10 ^ p) := by
  have scale : (0 : ℚ) < 10 ^ (-p).toNat := by positivity
  have unit : q * (r.unit * Nat.pow 10 p.toNat : Nat) = q * 10 ^ p * r.unit * 10 ^ (-p).toNat := by
    have := zpow_mul_pow_toNat (b := 10) (by norm_num) p
    rw [Nat.pow_eq]
    push_cast
    rw [← this]
    ring
  have cast (m : Nat) : ((m * Nat.pow 10 (-p).toNat : Nat) : ℚ) = m * 10 ^ (-p).toNat := by
    rw [Nat.pow_eq]
    push_cast
    rfl
  obtain ⟨low, high, inside⟩ := h
  simp only [atPlace, unit, cast] at low high inside
  refine ⟨le_of_mul_le_mul_right low scale, le_of_mul_le_mul_right high scale, fun open_ => ?_⟩
  obtain ⟨first, last⟩ := inside open_
  exact ⟨fun same => first (by rw [same]), fun same => last (by rw [same])⟩

theorem around_of_contains (h : (ofBinary s e).Contains q) : Around s e q := by
  have scale : (0 : ℚ) < 2 ^ (2 - e).toNat := by positivity
  have cast (m : Nat) : ((m * Nat.pow 2 (e - 2).toNat : Nat) : ℚ) =
      m * 2 ^ (e - 2) * 2 ^ (2 - e).toNat := by
    have := zpow_mul_pow_toNat (b := 2) two_ne_zero (e - 2)
    rw [neg_sub] at this
    rw [mul_assoc, this, Nat.pow_eq]
    push_cast
    rfl
  have unit : ((Nat.pow 2 (2 - e).toNat : Nat) : ℚ) = 2 ^ (2 - e).toNat := by
    rw [Nat.pow_eq]
    push_cast
    rfl
  obtain ⟨low, high, inside⟩ := h
  simp only [ofBinary, cast, unit] at low high inside
  refine ⟨le_of_mul_le_mul_right low scale, le_of_mul_le_mul_right high scale, fun odd => ?_⟩
  obtain ⟨first, last⟩ := inside (decide_eq_false (by omega))
  exact ⟨fun same => first (by rw [← same]; rfl), fun same => last (by rw [same])⟩

/-! ## The neighbours of the value -/

/-- The value lies inside the interval, and is less than `10 ^ 16` times the interval's width. -/
structure Wide (r : Rounding) : Prop where
  unit_pos : 0 < r.unit
  low_lt : r.low < r.value
  lt_high : r.value < r.high
  precise : r.value + r.low * 10 ^ 16 < r.high * 10 ^ 16

theorem outside_of_holds_eq_false (h : r.holds n = false) :
    n * r.unit ≤ r.low ∨ r.high ≤ n * r.unit := by
  unfold holds at h
  split at h
  all_goals
    simp only [Bool.and_eq_false_iff, decide_eq_false_iff_not] at h
    omega

theorem holds_of_pick_eq_none (h : r.pick tie = none) :
    r.holds (r.value / r.unit) = false ∧ r.holds (r.value / r.unit + 1) = false := by
  simp only [pick] at h
  split at h
  · next below above => exact ⟨below, above⟩
  · cases h
  · cases h
  · split at h <;> cases h

/-- One of the two neighbours of the value lies in an interval that is wider than the unit. -/
theorem exists_pick (pos : 0 < r.unit) (low : r.low < r.value) (high : r.value < r.high)
    (wide : r.low + r.unit < r.high) : ∃ n, r.pick tie = some n := by
  refine Option.ne_none_iff_exists'.mp fun none => ?_
  obtain ⟨below, above⟩ := holds_of_pick_eq_none none
  have split := Nat.div_add_mod r.value r.unit
  have rest := Nat.mod_lt r.value pos
  rw [Nat.mul_comm] at split
  have next : (r.value / r.unit + 1) * r.unit = r.value / r.unit * r.unit + r.unit :=
    Nat.succ_mul _ _
  have := outside_of_holds_eq_false below
  have := outside_of_holds_eq_false above
  omega

/-! ## The first digit -/

theorem lt_pow_digitCount (n : Nat) : n < 10 ^ digitCount n :=
  (Nat.length_toDigits_le_iff (by decide) Nat.length_toDigits_pos).mp (Nat.le_refl (digitCount n))

theorem pow_digitCount_le (h : 0 < n) : 10 ^ (digitCount n - 1) ≤ n := by
  rcases Nat.eq_zero_or_pos (digitCount n - 1) with none | some_
  · rw [none]
    exact h
  · refine Nat.le_of_not_lt fun less => ?_
    have : digitCount n ≤ digitCount n - 1 :=
      (Nat.length_toDigits_le_iff (by decide) some_).mpr less
    omega

theorem firstPlace_le (pos : 0 < r.unit) (hvalue : 0 < r.value) :
    (10 : ℚ) ^ r.firstPlace ≤ r.value / r.unit := by
  have unit_pos : (0 : ℚ) < r.unit := by exact_mod_cast pos
  rw [le_div_iff₀ unit_pos]
  unfold firstPlace
  split
  · next whole =>
    have count : 0 < digitCount (r.value / r.unit) := Nat.length_toDigits_pos
    have power : 10 ^ (digitCount (r.value / r.unit) - 1) * r.unit ≤ r.value :=
      (Nat.mul_le_mul_right _ (pow_digitCount_le (Nat.div_pos whole pos))).trans
        (Nat.div_mul_le_self _ _)
    have place : (digitCount (r.value / r.unit) : ℤ) - 1 =
        (digitCount (r.value / r.unit) - 1 : Nat) := by omega
    rw [place, zpow_natCast]
    exact_mod_cast power
  · have power : r.unit ≤ r.value * 10 ^ digitCount ((r.unit - 1) / r.value) := by
      have := (Nat.div_lt_iff_lt_mul hvalue).mp (lt_pow_digitCount ((r.unit - 1) / r.value))
      rw [Nat.mul_comm]
      omega
    rw [zpow_neg, zpow_natCast, inv_mul_le_iff₀ (by positivity), mul_comm]
    exact_mod_cast power

/-! ## The shortest decimal -/

/-- With seventeen digits one of the neighbours lies in the interval. -/
theorem Wide.exists_pick_atPlace (wide : r.Wide) (tie : Tie) :
    ∃ n, pick tie (r.atPlace (r.firstPlace - 16)) = some n := by
  have scale (p : ℤ) : 0 < Nat.pow 10 p.toNat := Nat.pow_pos (by omega)
  refine exists_pick (Nat.mul_pos wide.unit_pos (scale _))
    (Nat.mul_lt_mul_of_pos_right wide.low_lt (scale _))
    (Nat.mul_lt_mul_of_pos_right wide.lt_high (scale _)) ?_
  show r.low * Nat.pow 10 (-(r.firstPlace - 16)).toNat +
    r.unit * Nat.pow 10 (r.firstPlace - 16).toNat <
      r.high * Nat.pow 10 (-(r.firstPlace - 16)).toNat
  have unit_pos : (0 : ℚ) < r.unit := by exact_mod_cast wide.unit_pos
  have first := firstPlace_le wide.unit_pos (Nat.zero_lt_of_lt wide.low_lt)
  rw [le_div_iff₀ unit_pos] at first
  have shift : (10 : ℚ) ^ r.firstPlace = 10 ^ 16 * 10 ^ (r.firstPlace - 16) := by
    rw [← zpow_natCast, ← zpow_add₀ (by norm_num)]
    congr 1
    omega
  have precise : (r.value + r.low * 10 ^ 16 : ℚ) < r.high * 10 ^ 16 := by
    exact_mod_cast wide.precise
  have power := zpow_mul_pow_toNat (b := (10 : ℚ)) (by norm_num) (r.firstPlace - 16)
  have pos : (0 : ℚ) < 10 ^ (-(r.firstPlace - 16)).toNat := by positivity
  rw [Nat.pow_eq, Nat.pow_eq, ← Nat.cast_lt (α := ℚ)]
  push_cast
  rw [← power]
  rw [shift] at first
  generalize (10 : ℚ) ^ (r.firstPlace - 16) = u at *
  generalize (10 : ℚ) ^ (-(r.firstPlace - 16)).toNat = k at *
  calc (r.low * k + r.unit * (u * k) : ℚ) = (r.low + u * r.unit) * k := by ring
    _ < r.high * k := mul_lt_mul_of_pos_right (by linarith) pos

theorem Wide.contains_shortest (wide : r.Wide) (tie : Tie) : r.Contains (r.shortest tie).toRat := by
  obtain ⟨n, last⟩ := wide.exists_pick_atPlace tie
  have some_ : ((List.range 17).findSome? fun n : Nat =>
      (pick tie (r.atPlace (r.firstPlace - n))).map fun digits =>
        (⟨digits, r.firstPlace - n⟩ : Decimal)).isSome := by
    rw [List.findSome?_isSome_iff]
    refine ⟨16, List.mem_range.mpr (by omega), ?_⟩
    show (Option.map _ (pick tie (r.atPlace (r.firstPlace - 16)))).isSome
    rw [last]
    rfl
  obtain ⟨d, found⟩ := Option.isSome_iff_exists.mp some_
  have same : r.shortest tie = d := by
    simp only [shortest, found, Option.getD_some]
  obtain ⟨n, -, tried⟩ := List.exists_of_findSome?_eq_some found
  obtain ⟨digits, picked, rfl⟩ := Option.map_eq_some_iff.mp tried
  rw [same]
  exact contains_atPlace (contains_of_holds (holds_of_pick picked))

theorem wide_ofBinary (h : s < 2 ^ 53) (hs : 0 < s) (e : ℤ) : (ofBinary s e).Wide := by
  have scale (p : ℤ) : 0 < Nat.pow 2 p.toNat := Nat.pow_pos (by omega)
  have lead : Binary64.leadingBit = 2 ^ 52 := rfl
  have quarters := Binary64.lowQuarters_ge s e
  have low : Binary64.lowQuarters s e < 4 * s := by
    unfold Binary64.lowQuarters
    split <;> omega
  have width : 4 * s + Binary64.lowQuarters s e * 10 ^ 16 < (4 * s + 2) * 10 ^ 16 := by
    unfold Binary64.lowQuarters
    split <;> omega
  refine ⟨scale _, Nat.mul_lt_mul_of_pos_right low (scale _),
    Nat.mul_lt_mul_of_pos_right (by omega) (scale _), ?_⟩
  have := Nat.mul_lt_mul_of_pos_right width (scale (e - 2))
  rw [Nat.add_mul, Nat.mul_right_comm (Binary64.lowQuarters s e),
    Nat.mul_right_comm (4 * s + 2)] at this
  exact this

theorem around_shortest (canonical : Canonical s e) (hs : 0 < s) (tie : Tie) :
    Around s e ((ofBinary s e).shortest tie).toRat :=
  around_of_contains ((wide_ofBinary canonical.significand_lt hs e).contains_shortest tie)

/-- **Reading back.** The shortest decimal of a number is read as that number. -/
theorem magnitude_shortest (canonical : Canonical s e) (hs : 0 < s) (tie : Tie) :
    ((ofBinary s e).shortest tie).magnitude = place s e :=
  Decimal.magnitude_eq canonical hs (around_shortest canonical hs tie)

end Worksheet.Rounding
