import Mathlib
import MipModel.Decimal.Shortest
import MipModel.Proofs.Doubling

/-!
# Rounding intervals

Every finite binary64 number has an interval of rationals around it that round to it, and the
intervals of different numbers have nothing in common (`eq_of_around`). The search for a decimal
meets a grid that is fine enough before it gives up, so the decimal that it finds lies in the
interval of its number (`holds_shortest`). A decimal thus names one number at most.
-/

namespace MipModel.Decimal

def value (d : Decimal) : ℚ := d.digits * 10 ^ d.exponent

/-- An integral power of a natural number as a quotient of two natural powers. -/
theorem zpow_mul_toNat {b : ℚ} (nonzero : b ≠ 0) (k : Int) :
    b ^ k * b ^ (-k).toNat = b ^ k.toNat := by
  rw [← zpow_natCast, ← zpow_natCast, ← zpow_add₀ nonzero]
  congr 1
  omega

namespace Interval

variable {i : Interval} {k : Int} {n : Nat}

def Holds (i : Interval) (x : ℚ) : Prop :=
  if i.closed then i.lower ≤ x * i.denominator ∧ x * i.denominator ≤ i.upper
  else i.lower < x * i.denominator ∧ x * i.denominator < i.upper

theorem contains_iff : i.contains n = true ↔
    if i.closed then i.lower ≤ n * i.denominator ∧ n * i.denominator ≤ i.upper
    else i.lower < n * i.denominator ∧ n * i.denominator < i.upper := by
  unfold contains
  dsimp only
  split <;> rw [Bool.and_eq_true, decide_eq_true_eq, decide_eq_true_eq]

/-- A whole number lies in the interval measured in powers of ten when the decimal with these
digits lies in the interval itself. -/
theorem contains_onGrid_iff : (i.onGrid k).contains n = true ↔ i.Holds (value ⟨n, k⟩) := by
  have ten : (10 : ℚ) ^ k * 10 ^ (-k).toNat = 10 ^ k.toNat := zpow_mul_toNat (by norm_num) k
  have up : (0 : ℚ) < 10 ^ (-k).toNat := by positivity
  have scale : ((n * (i.denominator * 10 ^ k.toNat) : Nat) : ℚ) =
      value ⟨n, k⟩ * i.denominator * 10 ^ (-k).toNat := by
    push_cast
    rw [value, ← ten]
    ring
  have low (m : Nat) : m * 10 ^ (-k).toNat ≤ n * (i.denominator * 10 ^ k.toNat) ↔
      (m : ℚ) ≤ value ⟨n, k⟩ * i.denominator := by
    rw [← mul_le_mul_iff_left₀ up, ← scale]
    norm_cast
  have high (m : Nat) : n * (i.denominator * 10 ^ k.toNat) ≤ m * 10 ^ (-k).toNat ↔
      value ⟨n, k⟩ * i.denominator ≤ m := by
    rw [← mul_le_mul_iff_left₀ up, ← scale]
    norm_cast
  rw [contains_iff, Holds]
  change (if i.closed = true then
    i.lower * 10 ^ (-k).toNat ≤ n * (i.denominator * 10 ^ k.toNat) ∧ _ else _) ↔ _
  simp only [← low, ← high, ← not_le]
  rfl

theorem contains_of_nearest? (h : i.nearest? = some n) : i.contains n = true := by
  unfold nearest? at h
  dsimp only at h
  split at h <;> cases h
  next first second =>
    split
    · exact first
    · exact second
  next first _ => exact first
  next _ second => exact second

/-- A grid that is finer than the lower half of the interval meets the interval. -/
theorem isSome_nearest? (positive : 0 < i.denominator) (fine : i.lower + i.denominator ≤ i.centre)
    (inside : i.centre < i.upper) : i.nearest?.isSome = true := by
  have below : i.contains (i.centre / i.denominator) = true := by
    have upward : i.centre / i.denominator * i.denominator ≤ i.centre := Nat.div_mul_le_self _ _
    have downward := Nat.lt_div_mul_add positive (a := i.centre)
    rw [contains_iff]
    split <;> omega
  unfold nearest?
  dsimp only
  rw [below]
  split <;> simp_all

/-- A search that meets the interval ends inside it. -/
theorem holds_firstHit {fuel : Nat} {j : Nat} (within : j < fuel)
    (hit : (i.onGrid (k - j)).nearest?.isSome = true) : i.Holds (i.firstHit fuel k).value := by
  induction fuel generalizing k j with
  | zero => exact absurd within (Nat.not_lt_zero j)
  | succ fuel ih =>
      unfold firstHit
      split
      next digits found => exact contains_onGrid_iff.mp (contains_of_nearest? found)
      next missed =>
        cases j with
        | zero =>
            rw [Nat.cast_zero, sub_zero, missed] at hit
            cases hit
        | succ j =>
            refine ih (Nat.lt_of_succ_lt_succ within) ?_
            rwa [sub_sub, add_comm, ← Nat.cast_succ]

end Interval

section Search

/-- Ten to a power that is less than a power of two by three tenths, and a little more. -/
theorem ten_zpow_le_two_zpow {g t : Int} (low : -1076 ≤ t) (high : t ≤ 969)
    (h : 100000 * g ≤ 30103 * t - 144335) : (10 : ℚ) ^ g ≤ 2 ^ t := by
  obtain ⟨u, rfl | rfl⟩ := Int.eq_nat_or_neg g
  · -- `10 ^ 3 ≤ 2 ^ 10`, and three decimal digits are worth more than needed up to `2 ^ 1401`.
    obtain ⟨t, rfl⟩ := Int.eq_ofNat_of_zero_le (show 0 ≤ t by omega)
    have cubes : ((10 : ℚ) ^ u) ^ 3 ≤ (2 ^ t) ^ 3 := by
      calc ((10 : ℚ) ^ u) ^ 3 = (10 ^ 3) ^ u := by rw [← pow_mul, ← pow_mul, mul_comm]
        _ ≤ (2 ^ 10) ^ u := by gcongr; norm_num
        _ = 2 ^ (10 * u) := by rw [pow_mul]
        _ ≤ 2 ^ (t * 3) := pow_le_pow_right₀ (by norm_num) (by omega)
        _ = (2 ^ t) ^ 3 := by rw [pow_mul]
    simpa using le_of_pow_le_pow_left₀ (by norm_num) (by positivity) cubes
  · obtain ⟨s, rfl | rfl⟩ := Int.eq_nat_or_neg t
    · exact (zpow_le_one_of_nonpos₀ (by norm_num) (by omega)).trans
        (one_le_zpow₀ (by norm_num) (by omega))
    · -- `2 ^ 93 ≤ 10 ^ 28`.
      have powers : ((2 : ℚ) ^ s) ^ 93 ≤ (10 ^ u) ^ 93 := by
        calc ((2 : ℚ) ^ s) ^ 93 = (2 ^ 93) ^ s := by rw [← pow_mul, ← pow_mul, mul_comm]
          _ ≤ (10 ^ 28) ^ s := by gcongr; norm_num
          _ = 10 ^ (28 * s) := by rw [pow_mul]
          _ ≤ 10 ^ (u * 93) := pow_le_pow_right₀ (by norm_num) (by omega)
          _ = (10 ^ u) ^ 93 := by rw [pow_mul]
      rw [zpow_neg, zpow_neg, zpow_natCast, zpow_natCast]
      exact inv_anti₀ (by positivity) (le_of_pow_le_pow_left₀ (by norm_num) (by positivity) powers)

open Binary64

variable {m m' : Nat} {e e' : Int}

/-- The last grid of the search is finer than a quarter of a unit in the last place. -/
theorem ten_zpow_le_of_canonical (h : Canonical m e) (positive : 0 < m) (high : e ≤ 971) :
    (10 : ℚ) ^ (ceilingExponent m e - 19) ≤ 2 ^ (e - 2) := by
  have places : m.log2 < 53 := (Nat.log2_lt positive.ne').mpr h.fits
  have least := h.least
  refine ten_zpow_le_two_zpow (by omega) (by omega) ?_
  unfold ceilingExponent
  omega

/-- The decimal that is found for a number lies in the interval of the number. -/
theorem holds_shortest (h : Canonical m e) (positive : 0 < m) (high : e ≤ 971) (narrow : Bool) :
    (Interval.ofBinary m e narrow).Holds (shortest m e narrow).value := by
  refine Interval.holds_firstHit (j := 19) (by decide) ?_
  generalize grid : ceilingExponent m e - (19 : Nat) = k
  have fine : (10 : ℚ) ^ k ≤ 2 ^ (e - 2) := grid ▸ ten_zpow_le_of_canonical h positive high
  have ten := zpow_mul_toNat (b := 10) (by norm_num) k
  have two := zpow_mul_toNat (b := 2) (by norm_num) (e - 2)
  have units : 2 ^ (2 - e).toNat * 10 ^ k.toNat ≤ 2 ^ (e - 2).toNat * 10 ^ (-k).toNat := by
    have : (2 : ℚ) ^ (2 - e).toNat * 10 ^ k.toNat ≤ 2 ^ (e - 2).toNat * 10 ^ (-k).toNat := by
      rw [← ten, ← two, neg_sub]
      calc (2 : ℚ) ^ (2 - e).toNat * (10 ^ k * 10 ^ (-k).toNat)
          = 10 ^ k * (2 ^ (2 - e).toNat * 10 ^ (-k).toNat) := by ring
        _ ≤ 2 ^ (e - 2) * (2 ^ (2 - e).toNat * 10 ^ (-k).toNat) := by gcongr
        _ = _ := by ring
    exact_mod_cast this
  have unit : 0 < 2 ^ (e - 2).toNat * 10 ^ (-k).toNat := by positivity
  apply Interval.isSome_nearest?
  · exact Nat.mul_pos (Nat.two_pow_pos _) (Nat.pow_pos (by decide))
  · show (4 * m - if narrow then 1 else 2) * 2 ^ (e - 2).toNat * 10 ^ (-k).toNat +
      2 ^ (2 - e).toNat * 10 ^ k.toNat ≤ 4 * m * 2 ^ (e - 2).toNat * 10 ^ (-k).toNat
    have smaller : (4 * m - if narrow then 1 else 2) + 1 ≤ 4 * m := by
      split <;> omega
    rw [mul_assoc, mul_assoc (4 * m)]
    nlinarith
  · show 4 * m * 2 ^ (e - 2).toNat * 10 ^ (-k).toNat <
      (4 * m + 2) * 2 ^ (e - 2).toNat * 10 ^ (-k).toNat
    rw [mul_assoc, mul_assoc (4 * m + 2)]
    nlinarith

end Search

section Separation

open Binary64

variable {m m' : Nat} {e e' : Int} {x : ℚ}

/-- The numbers whose lower neighbour is only half as far away as their upper one. -/
def isNarrow (m : Nat) (e : Int) : Bool := m == leadingOne && decide (-1074 < e)

/-- How far the interval of a number reaches downward, in quarters of its unit in the last place. -/
def reach (m : Nat) (e : Int) : ℚ := if isNarrow m e then 1 else 2

/-- The rationals around a number that round to it: the ends are among them only if the mantissa is
even. -/
structure Around (m : Nat) (e : Int) (x : ℚ) : Prop where
  low : (4 * m - reach m e) * 2 ^ (e - 2) ≤ x
  high : x ≤ (4 * m + 2) * 2 ^ (e - 2)
  odd : m % 2 = 1 → (4 * m - reach m e) * 2 ^ (e - 2) < x ∧ x < (4 * m + 2) * 2 ^ (e - 2)

theorem around_of_holds (positive : 0 < m)
    (h : (Interval.ofBinary m e (isNarrow m e)).Holds x) : Around m e x := by
  have denominator : (0 : ℚ) < 2 ^ (2 - e).toNat := by positivity
  have unit : (2 : ℚ) ^ (e - 2).toNat = 2 ^ (e - 2) * 2 ^ (2 - e).toNat := by
    rw [← zpow_mul_toNat (by norm_num) (e - 2), neg_sub]
  have lower : (((4 * m - if isNarrow m e then 1 else 2 : Nat) *
      Nat.pow 2 (e - 2).toNat : Nat) : ℚ) =
      (4 * m - reach m e) * 2 ^ (e - 2) * 2 ^ (2 - e).toNat := by
    have cut : ((4 * m - if isNarrow m e then 1 else 2 : Nat) : ℚ) = 4 * m - reach m e := by
      unfold reach
      split <;> push_cast [Nat.cast_sub (show 1 ≤ 4 * m by omega),
        Nat.cast_sub (show 2 ≤ 4 * m by omega)] <;> rfl
    rw [Nat.pow_eq, Nat.cast_mul, cut]
    push_cast
    rw [unit]
    ring
  have upper : (((4 * m + 2) * Nat.pow 2 (e - 2).toNat : Nat) : ℚ) =
      (4 * m + 2) * 2 ^ (e - 2) * 2 ^ (2 - e).toNat := by
    rw [Nat.pow_eq]
    push_cast
    rw [unit]
    ring
  have size : ((Nat.pow 2 (2 - e).toNat : Nat) : ℚ) = 2 ^ (2 - e).toNat := by
    rw [Nat.pow_eq]
    push_cast
    rfl
  unfold Interval.Holds Interval.ofBinary at h
  dsimp only at h
  rw [lower, upper, size] at h
  split at h
  next closed =>
    have even : m % 2 = 0 := by simpa using closed
    exact ⟨le_of_mul_le_mul_right h.1 denominator, le_of_mul_le_mul_right h.2 denominator,
      fun odd => absurd odd (by omega)⟩
  next =>
    have first := lt_of_mul_lt_mul_right h.1 denominator.le
    have second := lt_of_mul_lt_mul_right h.2 denominator.le
    exact ⟨first.le, second.le, fun _ => ⟨first, second⟩⟩

/-- No rational is around two numbers when the first ends where the second starts, or earlier. At a
common end one of the mantissas is odd. -/
theorem Around.separate (h : Around m e x) (h' : Around m' e' x)
    (below : (4 * m + 2) * 2 ^ (e - 2) ≤ ((4 * m' - reach m' e') * 2 ^ (e' - 2) : ℚ))
    (touch : (4 * m + 2) * 2 ^ (e - 2) = ((4 * m' - reach m' e') * 2 ^ (e' - 2) : ℚ) →
      m % 2 = 1 ∨ m' % 2 = 1) : False := by
  have same : (4 * m + 2) * 2 ^ (e - 2) = ((4 * m' - reach m' e') * 2 ^ (e' - 2) : ℚ) :=
    below.antisymm (h'.low.trans h.high)
  obtain odd | odd := touch same
  · exact absurd (same ▸ h'.low) (not_le.mpr (h.odd odd).2)
  · exact absurd (same ▸ h.high) (not_le.mpr (h'.odd odd).1)

theorem reach_le_two (m : Nat) (e : Int) : reach m e ≤ 2 := by
  unfold reach
  split <;> norm_num

/-- Of two numbers with the same exponent, the lesser mantissa makes the lower interval. -/
theorem Around.not_of_lt_mantissa (h : Around m e x) (less : m < m') : ¬Around m' e x := by
  intro h'
  have unit : (0 : ℚ) < 2 ^ (e - 2) := by positivity
  have reach := reach_le_two m' e
  have next : (m : ℚ) + 1 ≤ m' := by exact_mod_cast less
  refine h.separate h' (mul_le_mul_of_nonneg_right (by linarith) unit.le) fun same => ?_
  have same := mul_right_cancel₀ unit.ne' same
  have : (m' : ℚ) ≤ m + 1 := by linarith
  have : m' ≤ m + 1 := by exact_mod_cast this
  omega

/-- Of two numbers in canonical form, the lesser exponent makes the lower interval. -/
theorem Around.not_of_lt_exponent (h : Around m e x) (canonical : Canonical m e)
    (canonical' : Canonical m' e') (less : e < e') : ¬Around m' e' x := by
  intro h'
  have implicit : 2 ^ 52 ≤ m' := canonical'.normal.resolve_right (by have := canonical.least; omega)
  have unit : (0 : ℚ) < 2 ^ (e - 2) := by positivity
  obtain ⟨d, rfl⟩ : ∃ d : Nat, e' = e + 1 + d := ⟨(e' - (e + 1)).toNat, by omega⟩
  have longer : (2 : ℚ) ^ (e + 1 + d - 2) = 2 ^ (e - 2) * (2 * 2 ^ d) := by
    rw [← zpow_natCast, ← zpow_one_add₀ (by norm_num), ← zpow_add₀ (by norm_num)]
    congr 1
    omega
  have factor : (1 : ℚ) ≤ 2 ^ d := one_le_pow₀ (by norm_num)
  have largest : (m : ℚ) + 1 ≤ 2 ^ 53 := by exact_mod_cast canonical.fits
  -- In units of the lesser exponent: the upper end of the first, the lower end of the second.
  have ends : (4 * m + 2 : ℚ) ≤ (4 * m' - reach m' (e + 1 + d)) * 2 ∧
      (4 * m + 2 = (4 * m' - reach m' (e + 1 + d)) * 2 → m % 2 = 1) := by
    unfold reach
    split
    next narrow =>
      obtain ⟨rfl, -⟩ : m' = leadingOne ∧ -1074 < e + 1 + d := by simpa [isNarrow] using narrow
      have power : (leadingOne : ℚ) = 2 ^ 52 := by norm_num [leadingOne]
      rw [power]
      refine ⟨by linarith, fun same => ?_⟩
      have : (m : ℚ) + 1 = 2 ^ 53 := by linarith
      have : m + 1 = 2 ^ 53 := by exact_mod_cast this
      omega
    next wide =>
      have above : 2 ^ 52 + 1 ≤ m' := by
        refine Nat.lt_of_le_of_ne implicit fun same => wide ?_
        have := canonical.least
        simp only [isNarrow, ← same, leadingOne, Bool.and_eq_true, decide_eq_true_eq]
        exact ⟨rfl, by omega⟩
      have above : (2 : ℚ) ^ 52 + 1 ≤ m' := by exact_mod_cast above
      exact ⟨by linarith, fun same => by linarith⟩
  have start : (4 * m' - reach m' (e + 1 + d) : ℚ) * 2 ≤
      (4 * m' - reach m' (e + 1 + d)) * (2 * 2 ^ d) := by
    have := ends.1
    nlinarith
  have below : (4 * m + 2 : ℚ) ≤ (4 * m' - reach m' (e + 1 + d)) * (2 * 2 ^ d) :=
    ends.1.trans start
  refine h.separate h' ?_ fun same => .inl (ends.2 ?_) <;> rw [longer] at *
  · calc (4 * m + 2 : ℚ) * 2 ^ (e - 2)
        ≤ (4 * m' - reach m' (e + 1 + d)) * (2 * 2 ^ d) * 2 ^ (e - 2) := by gcongr
      _ = _ := by ring
  · refine ends.1.antisymm (start.trans (le_of_mul_le_mul_right ?_ unit))
    rw [same]
    exact (by ring : _ = _).le

/-- A rational rounds to one number at most. -/
theorem eq_of_around (canonical : Canonical m e) (canonical' : Canonical m' e')
    (h : Around m e x) (h' : Around m' e' x) : m = m' ∧ e = e' := by
  obtain lower | rfl | higher := lt_trichotomy e e'
  · exact absurd h' (h.not_of_lt_exponent canonical canonical' lower)
  · obtain lower | rfl | higher := lt_trichotomy m m'
    · exact absurd h' (h.not_of_lt_mantissa lower)
    · exact ⟨rfl, rfl⟩
    · exact absurd h (h'.not_of_lt_mantissa higher)
  · exact absurd h (h'.not_of_lt_exponent canonical' canonical higher)

/-- The shortest decimal names its number. -/
theorem eq_of_value_shortest (canonical : Canonical m e) (canonical' : Canonical m' e')
    (positive : 0 < m) (positive' : 0 < m') (high : e ≤ 971) (high' : e' ≤ 971)
    (same : (shortest m e (isNarrow m e)).value = (shortest m' e' (isNarrow m' e')).value) :
    m = m' ∧ e = e' := by
  have first := around_of_holds positive (holds_shortest canonical positive high _)
  have second := around_of_holds positive' (holds_shortest canonical' positive' high' _)
  exact eq_of_around canonical canonical' (same ▸ first) second

/-- The shortest decimal of a positive number is positive. -/
theorem value_shortest_pos (canonical : Canonical m e) (positive : 0 < m) (high : e ≤ 971) :
    0 < (shortest m e (isNarrow m e)).value := by
  have around := around_of_holds positive (holds_shortest canonical positive high _)
  have unit : (0 : ℚ) < 2 ^ (e - 2) := by positivity
  have reach := reach_le_two m e
  have one : (1 : ℚ) ≤ m := by exact_mod_cast positive
  exact (mul_pos (by linarith) unit).trans_le around.low

end Separation

end MipModel.Decimal
