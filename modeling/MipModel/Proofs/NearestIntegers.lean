import Mathlib
import MipModel.Proofs.WholeNumbers

/-!
# Integers among binary64 numbers

A binary64 number has 53 places, so an integer whose digits need more of them is not among the
numbers. What becomes of it is the nearest integer with 53 leading places, the one with an even
mantissa if there are two (`nearest`). The same happens to the sum of two integers: it is computed
exactly and then rounded.

Exactly the integers that end in enough zeros are not changed by rounding (`nearest_eq_iff`).
-/

namespace MipModel.Binary64

open Float.Model Float.Model.UnpackedFloat

/-- A quotient rounded to a nearest integer, to the even one of two. -/
def roundHalfEven (m d : Nat) : Nat :=
  if 2 * (m % d) < d ∨ 2 * (m % d) = d ∧ m / d % 2 = 0 then m / d else m / d + 1

/-- A nearest natural number with 53 leading places, the one with an even mantissa of two. -/
def nearestNat (m : Nat) : Nat := roundHalfEven m (2 ^ (m.log2 - 52)) * 2 ^ (m.log2 - 52)

/-- A nearest integer with 53 leading places, the one with an even mantissa of two. -/
def nearest (n : Int) : Int := n.sign * nearestNat n.natAbs

/-- The digits of an integer end in zeros after 53 places. -/
def Short (n : Int) : Prop := ∃ m e : Nat, m < 2 ^ 53 ∧ n.natAbs = m * 2 ^ e

section Rounding

variable {m d n j : Nat}

/-- A quotient without remainder is not changed. -/
theorem roundHalfEven_of_dvd (positive : 0 < d) (divides : d ∣ m) : roundHalfEven m d * d = m := by
  rw [roundHalfEven, Nat.mod_eq_zero_of_dvd divides, if_pos (.inl positive),
    Nat.div_mul_cancel divides]

/-- A quotient is rounded by the parts that remain when it is reduced. -/
theorem roundHalfEven_mul_mul (j : Nat) (positive : 0 < d) :
    roundHalfEven (m * d) (j * d) = roundHalfEven m j := by
  simp only [roundHalfEven, Nat.mul_mod_mul_right, Nat.mul_div_mul_right _ _ positive,
    ← mul_assoc, Nat.mul_lt_mul_right positive, Nat.mul_left_inj positive.ne']

/-- A rounded quotient is off by half a unit at most. -/
theorem roundHalfEven_bounds (positive : 0 < d) :
    2 * m ≤ 2 * (roundHalfEven m d * d) + d ∧ 2 * (roundHalfEven m d * d) ≤ 2 * m + d := by
  have parts : d * (m / d) + m % d = m := Nat.div_add_mod m d
  have below : m % d < d := Nat.mod_lt m positive
  rw [roundHalfEven]
  split
  next down =>
    rw [mul_comm (m / d)]
    omega
  next up =>
    rw [add_mul, one_mul, mul_comm (m / d)]
    omega

/-- What is left of a mantissa when it is shifted: the leading places, whether the rest is at least
half a unit, and whether it is anything else than half a unit or nothing. -/
theorem shiftRight_eq (m n : Nat) : ((⟨m, false, false⟩ : ExtendedMantissa) >>> n) =
    ⟨m / 2 ^ n, decide (2 ^ n ≤ 2 * (m % 2 ^ n)), decide (2 * (m % 2 ^ n) % 2 ^ n ≠ 0)⟩ := by
  show n.repeat ExtendedMantissa.shiftRightOne _ = _
  induction n with
  | zero => simp [Nat.repeat, Nat.mod_one]
  | succ n ih =>
      have power : 0 < 2 ^ n := Nat.two_pow_pos n
      have below : m % 2 ^ n < 2 ^ n := Nat.mod_lt m power
      have rest : m % 2 ^ (n + 1) = m % 2 ^ n + 2 ^ n * (m / 2 ^ n % 2) := Nat.mod_pow_succ
      have last : 2 * (m % 2 ^ (n + 1)) % 2 ^ (n + 1) = 2 * (m % 2 ^ n) := by
        rw [rest, pow_succ', Nat.mul_mod_mul_left, Nat.add_mul_mod_self_left, Nat.mod_mod]
      have some : 2 ^ n ≤ 2 * (m % 2 ^ n) ∨ 2 * (m % 2 ^ n) % 2 ^ n ≠ 0 ↔ 2 * (m % 2 ^ n) ≠ 0 := by
        obtain high | low := le_or_gt (2 ^ n) (2 * (m % 2 ^ n))
        · exact iff_of_true (.inl high) (by omega)
        · rw [Nat.mod_eq_of_lt low]
          exact or_iff_right (not_le.mpr low)
      rw [Nat.repeat, ih, ExtendedMantissa.shiftRightOne, last, ExtendedMantissa.mk.injEq]
      refine ⟨by rw [Nat.div_div_eq_div_mul, pow_succ], ?_, ?_⟩
      · obtain even | odd := Nat.mod_two_eq_zero_or_one (m / 2 ^ n)
        · rw [rest, even, pow_succ']
          simp
          omega
        · rw [rest, odd, pow_succ']
          simp
      · rw [← Bool.decide_or]
        exact decide_eq_decide.mpr some

theorem roundedMantissa_shiftRight (m n : Nat) :
    ((⟨m, false, false⟩ : ExtendedMantissa) >>> n).roundedMantissa = roundHalfEven m (2 ^ n) := by
  have below : m % 2 ^ n < 2 ^ n := Nat.mod_lt m (Nat.two_pow_pos n)
  rw [shiftRight_eq, roundHalfEven]
  obtain low | equal | high := lt_trichotomy (2 * (m % 2 ^ n)) (2 ^ n)
  · rw [decide_eq_false (not_le.mpr low), if_pos (.inl low)]
    cases decide (2 * (m % 2 ^ n) % 2 ^ n ≠ 0) <;> rfl
  · have half : (⟨m / 2 ^ n, true, false⟩ : ExtendedMantissa).roundedMantissa =
        m / 2 ^ n + m / 2 ^ n % 2 := rfl
    rw [equal, Nat.mod_self, decide_eq_true le_rfl, decide_eq_false (not_not.mpr rfl), half]
    obtain even | odd := Nat.mod_two_eq_zero_or_one (m / 2 ^ n)
    · rw [even, if_pos (.inr ⟨rfl, rfl⟩), add_zero]
    · rw [odd, if_neg (by omega)]
  · have some : 2 * (m % 2 ^ n) % 2 ^ n ≠ 0 := by
      rw [Nat.mod_eq_sub_mod high.le, Nat.mod_eq_of_lt (by omega)]
      omega
    rw [decide_eq_true high.le, decide_eq_true some, if_neg (by omega)]
    rfl

/-- A number that ends in enough zeros is not changed. -/
theorem nearestNat_of_dvd (divides : 2 ^ (m.log2 - 52) ∣ m) : nearestNat m = m :=
  roundHalfEven_of_dvd (Nat.two_pow_pos _) divides

theorem nearestNat_of_short (small : m < 2 ^ 53) (j : Nat) :
    nearestNat (m * 2 ^ j) = m * 2 ^ j := by
  obtain rfl | positive := m.eq_zero_or_pos
  · rw [zero_mul]
    rfl
  · have places : m.log2 < 53 := (Nat.log2_lt positive.ne').mpr small
    apply nearestNat_of_dvd
    rw [log2_mul_two_pow positive]
    exact (Nat.pow_dvd_pow 2 (by omega)).mul_left m

theorem nearestNat_of_lt (small : m < 2 ^ 53) : nearestNat m = m := by
  have same := nearestNat_of_short small 0
  rwa [pow_zero, mul_one] at same

/-- Zeros at the end do not matter for rounding. -/
theorem nearestNat_mul_two_pow (m j : Nat) : nearestNat (m * 2 ^ j) = nearestNat m * 2 ^ j := by
  obtain small | long := lt_or_ge m (2 ^ 53)
  · rw [nearestNat_of_short small, nearestNat_of_lt small]
  · have positive : 0 < m := by omega
    have places : 53 ≤ m.log2 := (Nat.le_log2 positive.ne').mpr long
    have longer : (m * 2 ^ j).log2 - 52 = m.log2 - 52 + j := by
      rw [log2_mul_two_pow positive]
      omega
    rw [nearestNat, longer, pow_add, roundHalfEven_mul_mul _ (Nat.two_pow_pos j), ← mul_assoc,
      nearestNat]

theorem nearestNat_le (m : Nat) : nearestNat m ≤ 2 * m := by
  obtain rfl | positive := m.eq_zero_or_pos
  · exact le_rfl
  · have unit : 2 ^ (m.log2 - 52) ≤ m :=
      (Nat.pow_le_pow_right (by decide) (Nat.sub_le _ _)).trans (Nat.log2_self_le positive.ne')
    have bounds := (roundHalfEven_bounds (m := m) (Nat.two_pow_pos (m.log2 - 52))).2
    rw [nearestNat]
    omega

/-- Exactly what has 53 leading places is not changed. -/
theorem nearestNat_eq_iff : nearestNat m = m ↔ ∃ a e : Nat, a < 2 ^ 53 ∧ m = a * 2 ^ e := by
  constructor
  · intro same
    have unit : 0 < 2 ^ (m.log2 - 52) := Nat.two_pow_pos _
    have leading : m / 2 ^ (m.log2 - 52) < 2 ^ 53 := by
      rw [Nat.div_lt_iff_lt_mul unit, ← pow_add]
      exact Nat.lt_log2_self.trans_le (Nat.pow_le_pow_right (by decide) (by omega))
    have rounded : roundHalfEven m (2 ^ (m.log2 - 52)) ≤ 2 ^ 53 := by
      rw [roundHalfEven]
      split <;> omega
    obtain fits | carried := rounded.lt_or_eq
    · exact ⟨_, _, fits, same.symm⟩
    · refine ⟨1, 53 + (m.log2 - 52), by decide, ?_⟩
      rw [one_mul, pow_add, ← carried]
      exact same.symm
  · rintro ⟨a, e, small, rfl⟩
    exact nearestNat_of_short small e

theorem nearest_natCast (m : Nat) : nearest m = nearestNat m := by
  obtain rfl | positive := m.eq_zero_or_pos
  · rfl
  · rw [nearest, Int.sign_eq_one_of_pos (Int.natCast_pos.mpr positive), one_mul,
      Int.natAbs_natCast]

@[simp] theorem nearest_neg (n : Int) : nearest (-n) = -nearest n := by
  rw [nearest, nearest, Int.sign_neg, Int.natAbs_neg, neg_mul]

theorem nearest_eq_iff {n : Int} : nearest n = n ↔ Short n := by
  rw [Short, ← nearestNat_eq_iff, nearest]
  obtain rfl | some := eq_or_ne n 0
  · exact iff_of_true rfl rfl
  · have sign : n.sign ≠ 0 := mt Int.sign_eq_zero_iff_zero.mp some
    have parts : n.sign * n.natAbs = n := Int.sign_mul_natAbs n
    constructor
    · intro same
      exact_mod_cast mul_left_cancel₀ sign (same.trans parts.symm)
    · intro same
      rw [same, parts]

theorem nearest_mul_two_pow (n : Int) (j : Nat) : nearest (n * 2 ^ j) = nearest n * 2 ^ j := by
  have power : Int.sign (2 ^ j) = 1 := Int.sign_eq_one_of_pos (by positivity)
  have magnitude : (n * 2 ^ j).natAbs = n.natAbs * 2 ^ j := by
    rw [Int.natAbs_mul, Int.natAbs_pow]
    rfl
  rw [nearest, nearest, Int.sign_mul, power, magnitude, nearestNat_mul_two_pow]
  push_cast
  ring

/-- An integer is rounded alike whatever power of two is taken out of it. -/
theorem nearest_scaled {a n : Int} {e : Int} (value : (a : ℚ) * 2 ^ e = n) :
    (nearest a : ℚ) * 2 ^ e = nearest n := by
  obtain ⟨j, rfl | rfl⟩ := Int.eq_nat_or_neg e
  · rw [zpow_natCast] at value ⊢
    obtain rfl : a * 2 ^ j = n := by exact_mod_cast value
    rw [nearest_mul_two_pow]
    push_cast
    rfl
  · rw [zpow_neg, zpow_natCast, ← div_eq_mul_inv, div_eq_iff (by positivity)] at value ⊢
    obtain rfl : a = n * 2 ^ j := by exact_mod_cast value
    rw [nearest_mul_two_pow]
    push_cast
    rfl

theorem natAbs_nearest_le (n : Int) : (nearest n).natAbs ≤ 2 * n.natAbs := by
  rw [nearest, Int.natAbs_mul, Int.natAbs_natCast]
  have sign : n.sign.natAbs ≤ 1 := by
    obtain below | rfl | above := lt_trichotomy n 0
    · rw [Int.sign_eq_neg_one_of_neg below]
      rfl
    · exact Nat.zero_le 1
    · rw [Int.sign_eq_one_of_pos above]
      rfl
  calc n.sign.natAbs * nearestNat n.natAbs ≤ 1 * nearestNat n.natAbs := Nat.mul_le_mul_right _ sign
    _ ≤ 2 * n.natAbs := by rw [one_mul]; exact nearestNat_le _

end Rounding

section Values

variable {x y : Float} {m : Nat} {e : Int} {n a b : Int}

/-- A mantissa is rounded to the nearest one of 53 places. -/
theorem exists_round_nearest (s : Sign) (positive : 0 < m) (least : -1074 ≤ e) :
    ∃ m' e' positive', Canonical m' e' ∧ (m' : ℚ) * 2 ^ e' = nearestNat m * 2 ^ e ∧
      UnpackedFloat.round Format.binary64 s m e = .finite s m' e' positive' := by
  obtain small | long := lt_or_ge m (2 ^ 53)
  · obtain ⟨n, positive', canonical, rounded⟩ := round_of_fits s positive small least
    refine ⟨_, _, positive', canonical, ?_, rounded⟩
    rw [nearestNat_of_lt small, zpow_sub₀ two_ne_zero, zpow_natCast]
    push_cast
    field_simp
  · obtain ⟨n, log⟩ : ∃ n : Nat, m.log2 = 52 + n :=
      ⟨m.log2 - 52, by have := (Nat.le_log2 positive.ne').mpr long; omega⟩
    obtain ⟨m', e', positive', canonical, value, rounded⟩ := round_of_log2 s log least
    refine ⟨m', e', positive', canonical, value.trans ?_, rounded⟩
    rw [roundedMantissa_shiftRight, nearestNat, log, Nat.add_sub_cancel_left,
      zpow_add₀ two_ne_zero, zpow_natCast]
    push_cast
    ring

/-- What is not too large does not overflow. -/
theorem repacked_of_value_le {s : Sign} {positive : 0 < m} (canonical : Canonical m e)
    (bound : (m : ℚ) * 2 ^ e ≤ 2 ^ (100 : Int)) :
    repacked (.finite s m e positive) = .finite s m e positive := by
  refine repacked_of_le canonical (not_lt.mp fun high => ?_)
  have full : (2 : ℚ) ^ 52 ≤ m := by
    exact_mod_cast canonical.normal.resolve_right (by omega)
  have large : (2 : ℚ) ^ (100 : Int) < 2 ^ 52 * 2 ^ e := by
    rw [← zpow_natCast, ← zpow_add₀ two_ne_zero]
    exact zpow_lt_zpow_right₀ one_lt_two (by push_cast; omega)
  exact absurd bound (not_le.mpr (large.trans_le (mul_le_mul_of_nonneg_right full (by positivity))))

theorem extended_round (s : Sign) (positive : 0 < m) (least : -1074 ≤ e)
    (bound : (m : ℚ) * 2 ^ e ≤ 2 ^ (99 : Int)) :
    (repacked (UnpackedFloat.round Format.binary64 s m e)).isFinite = true ∧
      extended (repacked (UnpackedFloat.round Format.binary64 s m e)) =
        ((s.apply (nearestNat m) * 2 ^ e : ℚ) : WithTop ℚ) := by
  obtain ⟨m', e', positive', canonical, value, rounded⟩ := exists_round_nearest s positive least
  have double : (nearestNat m : ℚ) ≤ 2 * m := by exact_mod_cast nearestNat_le m
  have bound' : (m' : ℚ) * 2 ^ e' ≤ 2 ^ (100 : Int) := by
    calc (m' : ℚ) * 2 ^ e' = nearestNat m * 2 ^ e := value
      _ ≤ 2 * m * 2 ^ e := by gcongr
      _ = 2 * (m * 2 ^ e) := mul_assoc ..
      _ ≤ 2 * 2 ^ (99 : Int) := by gcongr
      _ = 2 ^ (100 : Int) := by norm_num
  rw [rounded, repacked_of_value_le canonical bound']
  refine ⟨rfl, ?_⟩
  cases s with
  | negative => simp [value, Sign.apply]
  | positive => simp [value, Sign.apply]

/-- An integer times a power of two is rounded to a nearest one. -/
theorem extended_normalize (z : Sign) (least : -1074 ≤ e)
    (bound : (a.natAbs : ℚ) * 2 ^ e ≤ 2 ^ (99 : Int)) :
    (repacked (UnpackedFloat.normalize Format.binary64 a e z)).isFinite = true ∧
      extended (repacked (UnpackedFloat.normalize Format.binary64 a e z)) =
        ((nearest a * 2 ^ e : ℚ) : WithTop ℚ) := by
  rw [UnpackedFloat.normalize, nearest]
  have cast : (a.natAbs : ℚ) = |(a : ℚ)| := by rw [Nat.cast_natAbs, Int.cast_abs]
  obtain below | rfl | above := lt_trichotomy a 0
  · have magnitude : (-a).toNat = a.natAbs := by omega
    obtain ⟨finite, value⟩ :=
      extended_round .negative (show 0 < a.natAbs by omega) least bound
    rw [compare_lt_iff_lt.mpr below, Int.sign_eq_neg_one_of_neg below]
    simp only [magnitude]
    refine ⟨finite, value.trans ?_⟩
    simp [Sign.apply]
  · have back : repacked (.zero z) = .zero z := unpack_packedZero
    rw [compare_eq_iff_eq.mpr rfl, Int.sign_zero, zero_mul, Int.cast_zero, zero_mul]
    simp only [back]
    exact ⟨rfl, extended_zero z⟩
  · have magnitude : a.toNat = a.natAbs := by omega
    obtain ⟨finite, value⟩ :=
      extended_round .positive (show 0 < a.natAbs by omega) least bound
    rw [compare_gt_iff_gt.mpr above, Int.sign_eq_one_of_pos above]
    simp only [magnitude]
    refine ⟨finite, value.trans ?_⟩
    simp [Sign.apply]

theorem eq_zero_of_extended_zero {s : Sign} (h : extended (.zero s) = ((n : ℚ) : WithTop ℚ)) :
    n = 0 := by
  obtain same : (0 : ℚ) = n := WithTop.coe_inj.mp (WithBot.coe_inj.mp h)
  exact_mod_cast same.symm

/-- A binary64 number that is an integer has 53 leading places. -/
theorem short_of_extended {u : UnpackedFloat} (representable : Representable u)
    (h : extended u = ((n : ℚ) : WithTop ℚ)) : Short n := by
  cases u with
  | infinity s =>
      cases s with
      | negative => exact absurd h WithBot.bot_ne_coe
      | positive => exact absurd (WithBot.coe_inj.mp h) WithTop.top_ne_coe
  | finite s m e positive =>
      have fits := representable.1.fits
      have magnitude : (n.natAbs : ℚ) = m * 2 ^ e := by
        have above : (0 : ℚ) ≤ m * 2 ^ e := by positivity
        rw [Nat.cast_natAbs, Int.cast_abs]
        cases s with
        | negative =>
            rw [extended_negative, WithBot.coe_inj, WithTop.coe_inj] at h
            rw [← h, abs_neg, abs_of_nonneg above]
        | positive =>
            rw [extended_positive, WithBot.coe_inj, WithTop.coe_inj] at h
            rw [← h, abs_of_nonneg above]
      obtain ⟨j, rfl | rfl⟩ := Int.eq_nat_or_neg e
      · rw [zpow_natCast] at magnitude
        exact ⟨m, j, fits, by exact_mod_cast magnitude⟩
      · rw [zpow_neg, zpow_natCast, ← div_eq_mul_inv, eq_div_iff (by positivity)] at magnitude
        have magnitude : n.natAbs * 2 ^ j = m := by exact_mod_cast magnitude
        have small : n.natAbs ≤ m := magnitude ▸ Nat.le_mul_of_pos_right _ (Nat.two_pow_pos j)
        exact ⟨n.natAbs, 0, small.trans_lt fits, by rw [pow_zero, mul_one]⟩
  | _ =>
      obtain rfl : n = 0 := eq_zero_of_extended_zero (s := .positive) h
      exact ⟨0, 0, by decide, rfl⟩

/-- The sum of two numbers in canonical form, where it is an integer. -/
theorem extended_add {s s' : Sign} {m m' : Nat} {e e' : Int} {positive : 0 < m}
    {positive' : 0 < m'} (h : Canonical m e) (h' : Canonical m' e')
    (sum : (s.apply m * 2 ^ e + s'.apply m' * 2 ^ e' : ℚ) = n) (bound : n.natAbs ≤ 2 ^ 99) :
    (repacked (UnpackedFloat.add Format.binary64 (.finite s m e positive)
        (.finite s' m' e' positive'))).isFinite = true ∧
      extended (repacked (UnpackedFloat.add Format.binary64 (.finite s m e positive)
        (.finite s' m' e' positive'))) = ((nearest n : ℚ) : WithTop ℚ) := by
  set least := min e e' with hleast
  set total : Int := s.apply (m * 2 ^ (e - least).toNat : Nat) +
    s'.apply (m' * 2 ^ (e' - least).toNat : Nat) with htotal
  have added : UnpackedFloat.add Format.binary64 (.finite s m e positive)
      (.finite s' m' e' positive') = normalize Format.binary64 total least .positive := by
    simp only [UnpackedFloat.add, decreaseExponent, Nat.shiftLeft_eq, total, hleast]
  have value : (total : ℚ) * 2 ^ least = n := by
    rw [htotal, Int.cast_add, add_mul, apply_shift s m (min_le_left e e'),
      apply_shift s' m' (min_le_right e e'), sum]
  have magnitude : (total.natAbs : ℚ) * 2 ^ least = n.natAbs := by
    rw [Nat.cast_natAbs, Nat.cast_natAbs, Int.cast_abs, Int.cast_abs, ← value, abs_mul,
      abs_of_pos (show (0 : ℚ) < 2 ^ least by positivity)]
  have small : (total.natAbs : ℚ) * 2 ^ least ≤ 2 ^ (99 : Int) := by
    rw [magnitude]
    exact_mod_cast bound
  obtain ⟨finite, rounded⟩ := extended_normalize .positive (le_min h.least h'.least) small
  rw [added, rounded, nearest_scaled value]
  exact ⟨finite, rfl⟩

/-- The sum of two integers is rounded to a nearest integer. -/
theorem quantity_add (finite : x.isFinite = true) (finite' : y.isFinite = true)
    (left : quantity x = ((a : ℚ) : WithTop ℚ)) (right : quantity y = ((b : ℚ) : WithTop ℚ))
    (bound : (a + b).natAbs ≤ 2 ^ 99) :
    (x + y).isFinite = true ∧ quantity (x + y) = ((nearest (a + b) : ℚ) : WithTop ℚ) := by
  have sum : (x + y).toModel.unpack =
      repacked (UnpackedFloat.add Format.binary64 x.toModel.unpack y.toModel.unpack) := rfl
  have finite : x.toModel.unpack.isFinite = true := finite
  have finite' : y.toModel.unpack.isFinite = true := finite'
  have h := representable_unpack x
  have h' := representable_unpack y
  show (x + y).toModel.unpack.isFinite = true ∧ extended (x + y).toModel.unpack = _
  rw [quantity] at left right
  rw [sum]
  generalize x.toModel.unpack = u at finite h left ⊢
  generalize y.toModel.unpack = w at finite' h' right ⊢
  cases u with
  | notANumber | infinity s => cases finite
  | zero s =>
      obtain rfl := eq_zero_of_extended_zero left
      cases w with
      | notANumber | infinity s' => cases finite'
      | zero s' =>
          obtain rfl := eq_zero_of_extended_zero right
          obtain ⟨t, zero⟩ : ∃ t, UnpackedFloat.add Format.binary64 (.zero s) (.zero s') =
              .zero t := by
            cases s <;> cases s' <;> exact ⟨_, rfl⟩
          have back : repacked (.zero t) = .zero t := unpack_packedZero
          rw [zero, back]
          exact ⟨rfl, extended_zero t⟩
      | finite s' m' e' positive' =>
          have same : UnpackedFloat.add Format.binary64 (.zero s) (.finite s' m' e' positive') =
            .finite s' m' e' positive' := rfl
          rw [same, h'.repacked, right, zero_add, nearest_eq_iff.mpr (short_of_extended h' right)]
          exact ⟨rfl, rfl⟩
  | finite s m e positive =>
      cases w with
      | notANumber | infinity s' => cases finite'
      | zero s' =>
          obtain rfl := eq_zero_of_extended_zero right
          have same : UnpackedFloat.add Format.binary64 (.finite s m e positive) (.zero s') =
            .finite s m e positive := rfl
          rw [same, h.repacked, left, add_zero, nearest_eq_iff.mpr (short_of_extended h left)]
          exact ⟨rfl, rfl⟩
      | finite s' m' e' positive' =>
          refine extended_add h.1 h'.1 ?_ bound
          have left : (s.apply m * 2 ^ e : ℚ) = a := WithTop.coe_inj.mp (WithBot.coe_inj.mp left)
          have right : (s'.apply m' * 2 ^ e' : ℚ) = b :=
            WithTop.coe_inj.mp (WithBot.coe_inj.mp right)
          rw [left, right, Int.cast_add]

/-- A natural number of more than 53 places is converted by way of a product with one, which adds
53 places before it is rounded. -/
theorem unpack_ofNat {k : Nat} (long : 2 ^ 53 ≤ k) : (Float.ofNat k).toModel.unpack =
    repacked (roundWithAccuracy Format.binary64 .positive (k * 2 ^ 53) (-53) .exact) := by
  have direct : Float.ofNat k = ⟨Float.Model.ofScientific k 0⟩ := by
    show Float.ofScientific k false 0 = _
    rw [Float.ofScientific, dif_neg (by omega)]
    rfl
  have product : UnpackedFloat.ofScientific Format.binary64 k 0 =
      roundWithAccuracy Format.binary64 .positive (k * 2 ^ 53) (-53) .exact := by
    rw [UnpackedFloat.ofScientific, dif_neg (by omega), if_neg (by decide),
      if_neg (by simp only; omega), if_pos le_rfl, UnpackedFloat.mul,
      Nat.shiftLeft_eq]
    simp
    rfl
  rw [direct, ← product]
  rfl

/-- Places that are added before rounding do not change the result. -/
theorem exists_roundWithAccuracy_nearest {k : Nat} (long : 2 ^ 53 ≤ k) :
    ∃ m' e' positive', Canonical m' e' ∧ (m' : ℚ) * 2 ^ e' = nearestNat k ∧
      roundWithAccuracy Format.binary64 .positive (k * 2 ^ 53) (-53) .exact =
        .finite .positive m' e' positive' := by
  have places : 53 ≤ k.log2 := (Nat.le_log2 (by omega)).mpr long
  have unit : k.log2 + 1 = k.log2 - 52 + 53 := by omega
  have log : (k * 2 ^ 53).log2 = 52 + (k.log2 + 1) := by
    rw [log2_mul_two_pow (by omega)]
    omega
  have exponent : (-53 : Int) + (k.log2 - 52 + 53 : Nat) = (k.log2 - 52 : Nat) := by
    push_cast
    ring
  obtain ⟨m', e', positive', canonical, value, rounded⟩ :=
    roundWithAccuracy_of_log2 .positive (e := -53) log (by omega)
  refine ⟨m', e', positive', canonical, ?_, rounded⟩
  rw [value, roundedMantissa_shiftRight, unit, pow_add,
    roundHalfEven_mul_mul _ (Nat.two_pow_pos 53), exponent, zpow_natCast, nearestNat]
  push_cast
  rfl

/-- A natural number is converted to the number of a nearest one. -/
theorem quantity_ofNat {k : Nat} (bound : k ≤ 2 ^ 99) :
    (Float.ofNat k).isFinite = true ∧
      quantity (Float.ofNat k) = ((nearestNat k : ℚ) : WithTop ℚ) := by
  obtain small | long := lt_or_ge k (2 ^ 53)
  · rw [ofNat_eq_toFloat small, nearestNat_of_lt small]
    exact quantity_toFloat small
  · obtain ⟨m', e', positive', canonical, value, rounded⟩ := exists_roundWithAccuracy_nearest long
    have double : nearestNat k ≤ 2 ^ 100 := (nearestNat_le k).trans (by omega)
    have bound' : (m' : ℚ) * 2 ^ e' ≤ 2 ^ (100 : Int) := by
      rw [value]
      exact_mod_cast double
    show (Float.ofNat k).toModel.unpack.isFinite = true ∧ extended _ = _
    rw [unpack_ofNat long, rounded, repacked_of_value_le canonical bound', extended_positive, value]
    exact ⟨rfl, rfl⟩

/-- An integer is converted to the number of a nearest one. -/
theorem quantity_ofInt (bound : n.natAbs ≤ 2 ^ 99) :
    (Float.ofInt n).isFinite = true ∧
      quantity (Float.ofInt n) = ((nearest n : ℚ) : WithTop ℚ) := by
  cases n with
  | ofNat k =>
      obtain ⟨finite, value⟩ := quantity_ofNat (k := k) bound
      refine ⟨finite, value.trans ?_⟩
      rw [Int.ofNat_eq_natCast, nearest_natCast, Int.cast_natCast]
  | negSucc k =>
      obtain ⟨finite, value⟩ := quantity_ofNat (k := k + 1) bound
      refine ⟨isFinite_neg finite, (quantity_neg value).trans ?_⟩
      rw [Int.negSucc_eq, nearest_neg, ← Nat.cast_succ, nearest_natCast, Int.cast_neg,
        Int.cast_natCast]

end Values
end MipModel.Binary64
