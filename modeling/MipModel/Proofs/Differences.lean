import Mathlib
import MipModel.Proofs.Doubling

/-!
# Comparisons and differences of binary64 numbers

Binary64 numbers are ordered like the rational numbers that they stand for, between an infinity
below and one above (`lt_iff_quantity`, `beq_iff_quantity`). A difference is rounded, but never to
zero unless it is zero: the exponent of the exact difference is no less than the least one of the
format, so rounding only lengthens or shortens a mantissa that is not zero (`sub_beq_zero_iff`).
-/

namespace MipModel.Binary64

open Float.Model Float.Model.UnpackedFloat

section Representing

def Representable : UnpackedFloat → Prop
  | .finite _ m e _ => Canonical m e ∧ e ≤ 971
  | _ => True

theorem representable_unpack (x : Float) : Representable x.toModel.unpack := by
  cases parts : x.toModel.unpack with
  | finite s m e positive => exact ⟨canonical_of_unpack parts, exponent_le_of_unpack parts⟩
  | _ => trivial

/-- What a pattern of bits stands for is packed without loss. -/
theorem Representable.repacked {u : UnpackedFloat} (h : Representable u) : repacked u = u := by
  cases u with
  | notANumber => rfl
  | infinity s => exact unpack_packedInfinity s
  | zero s => exact unpack_packedZero
  | finite s m e positive => exact repacked_of_le h.1 h.2

theorem Representable.neg {u : UnpackedFloat} (h : Representable u) : Representable u.neg := by
  cases u <;> exact h

theorem Representable.abs {u : UnpackedFloat} (h : Representable u) : Representable u.abs := by
  cases u <;> exact h

@[simp] theorem unpack_neg (x : Float) : (-x).toModel.unpack = x.toModel.unpack.neg :=
  (representable_unpack x).neg.repacked

/-- Multiplication by minus one changes the sign and nothing else. -/
@[simp] theorem unpack_mul_neg_one (x : Float) :
    (x * -1).toModel.unpack = x.toModel.unpack.neg := by
  have unit : (-1 : Float).toModel.unpack = .finite .negative (2 ^ 52) (-52) (by decide) := rfl
  have opposite (s : Sign) : s * .negative = -s := by cases s <;> rfl
  have product : UnpackedFloat.mul Format.binary64 x.toModel.unpack (-1 : Float).toModel.unpack =
      x.toModel.unpack.neg := by
    rw [unit]
    cases parts : x.toModel.unpack with
    | notANumber => rfl
    | infinity s | zero s =>
        rw [UnpackedFloat.mul, opposite]
        rfl
    | finite s m e positive =>
        have shifted := roundWithAccuracy_exact (-s) positive (canonical_of_unpack parts) 52
        rw [UnpackedFloat.mul, opposite]
        exact shifted
  show repacked (UnpackedFloat.mul Format.binary64 x.toModel.unpack (-1 : Float).toModel.unpack) = _
  rw [product, (representable_unpack x).neg.repacked]

@[simp] theorem unpack_abs (x : Float) : x.abs.toModel.unpack = x.toModel.unpack.abs :=
  (representable_unpack x).abs.repacked

/-- Subtracting zero changes nothing. -/
@[simp] theorem unpack_sub_zero (x : Float) : (x - 0).toModel.unpack = x.toModel.unpack := by
  have same : UnpackedFloat.sub Format.binary64 x.toModel.unpack (.zero .positive) =
      x.toModel.unpack := by
    cases x.toModel.unpack with
    | infinity s => rfl
    | zero s => cases s <;> rfl
    | _ => rfl
  show repacked (UnpackedFloat.sub Format.binary64 x.toModel.unpack (.zero .positive)) = _
  rw [same, (representable_unpack x).repacked]

/-- Adding zero changes at most the sign of zero. -/
theorem unpack_add_zero (x : Float) : (x + 0).toModel.unpack = x.toModel.unpack ∨
    (x + 0).toModel.unpack = .zero .positive ∧ x.toModel.unpack = .zero .negative := by
  have sum : (x + 0).toModel.unpack =
      repacked (UnpackedFloat.add Format.binary64 x.toModel.unpack (.zero .positive)) := rfl
  have back := (representable_unpack x).repacked
  rw [sum]
  cases parts : x.toModel.unpack with
  | zero s =>
      cases s with
      | negative => exact .inr ⟨unpack_packedZero, rfl⟩
      | positive => exact .inl unpack_packedZero
  | _ =>
      rw [parts] at back
      exact .inl back

end Representing

section Order

variable {m m' : Nat} {e e' : Int}

theorem magnitude_lt (h : Canonical m e) (h' : Canonical m' e') (less : e < e') :
    (m : ℚ) * 2 ^ e < m' * 2 ^ e' := by
  have implicit : (2 : ℚ) ^ 52 ≤ m' := by
    exact_mod_cast h'.normal.resolve_right (by have := h.least; omega)
  have fits : (m : ℚ) < 2 ^ 53 := by exact_mod_cast h.fits
  have last : (2 : ℚ) ^ (e + 1) = 2 * 2 ^ e := by
    rw [zpow_add₀ two_ne_zero, zpow_one, mul_comm]
  have power : (0 : ℚ) < 2 ^ e := by positivity
  calc (m : ℚ) * 2 ^ e < 2 ^ 53 * 2 ^ e := mul_lt_mul_of_pos_right fits power
    _ = 2 ^ 52 * 2 ^ (e + 1) := by rw [last]; ring
    _ ≤ m' * 2 ^ e' := by
      gcongr
      · norm_num
      · omega

/-- Magnitudes in canonical form are compared by their exponents first. -/
theorem compare_magnitudes (h : Canonical m e) (h' : Canonical m' e') :
    (compare e e').then (compare m m') = cmp ((m : ℚ) * 2 ^ e) (m' * 2 ^ e') := by
  rcases lt_trichotomy e e' with less | rfl | greater
  · rw [compare_lt_iff_lt.mpr less, (cmp_eq_lt_iff _ _).mpr (magnitude_lt h h' less)]
    rfl
  · have power : (0 : ℚ) < 2 ^ e := by positivity
    rw [compare_eq_iff_eq.mpr rfl, cmp_mul_pos_right power]
    rcases lt_trichotomy m m' with less | rfl | greater
    · rw [compare_lt_iff_lt.mpr less, (cmp_eq_lt_iff _ _).mpr (Nat.cast_lt.mpr less)]
      rfl
    · rw [compare_eq_iff_eq.mpr rfl, cmp_self_eq_eq]
      rfl
    · rw [compare_gt_iff_gt.mpr greater, (cmp_eq_gt_iff _ _).mpr (Nat.cast_lt.mpr greater)]
      rfl
  · rw [compare_gt_iff_gt.mpr greater, (cmp_eq_gt_iff _ _).mpr (magnitude_lt h' h greater)]
    rfl

/-- What an unpacked number stands for, between an infinity below and one above. What is not a
number has no place among them and is put to zero. -/
def extended : UnpackedFloat → WithBot (WithTop ℚ)
  | .infinity .negative => ⊥
  | .infinity .positive => ((⊤ : WithTop ℚ) : WithBot (WithTop ℚ))
  | .finite s m e _ => ((s.apply m * 2 ^ e : ℚ) : WithTop ℚ)
  | _ => ((0 : ℚ) : WithTop ℚ)

@[simp] theorem extended_positive (positive : 0 < m) :
    extended (.finite .positive m e positive) = ((m * 2 ^ e : ℚ) : WithTop ℚ) := by
  simp [extended, Sign.apply]

@[simp] theorem extended_negative (positive : 0 < m) :
    extended (.finite .negative m e positive) = ((-(m * 2 ^ e) : ℚ) : WithTop ℚ) := by
  simp [extended, Sign.apply]

@[simp] theorem extended_zero (s : Sign) : extended (.zero s) = ((0 : ℚ) : WithTop ℚ) := rfl

/-- Bounded by infinities or not, rational numbers are compared alike. -/
@[simp] theorem cmp_coe (a b : ℚ) :
    cmp ((a : WithTop ℚ) : WithBot (WithTop ℚ)) (b : WithTop ℚ) = cmp a b := by
  simp [cmp, cmpUsing]

@[simp] theorem cmp_neg (a b : ℚ) : cmp (-a) (-b) = cmp b a := by
  simp [cmp, cmpUsing]

/-- Patterns are compared as what they stand for. -/
theorem compare_eq_cmp {u w : UnpackedFloat} (h : Representable u) (h' : Representable w)
    (number : u.isNaN = false) (number' : w.isNaN = false) :
    u.compare w = some (cmp (extended u) (extended w)) := by
  have above {m : Nat} {e : Int} (positive : 0 < m) : (0 : ℚ) < m * 2 ^ e := by positivity
  cases u with
  | notANumber => cases number
  | infinity s =>
      cases w with
      | notANumber => cases number'
      | infinity s' => cases s <;> cases s' <;> rfl
      | zero s' => cases s <;> rfl
      | finite s' m' e' positive' => cases s <;> rfl
  | zero s =>
      cases w with
      | notANumber => cases number'
      | infinity s' => cases s' <;> rfl
      | zero s' => rfl
      | finite s' m' e' positive' =>
          cases s' <;> simp only [extended_zero, extended_negative, extended_positive, cmp_coe]
          · exact congrArg some ((cmp_eq_gt_iff _ _).mpr (neg_lt_zero.mpr (above positive'))).symm
          · exact congrArg some ((cmp_eq_lt_iff _ _).mpr (above positive')).symm
  | finite s m e positive =>
      cases w with
      | notANumber => cases number'
      | infinity s' => cases s' <;> rfl
      | zero s' =>
          cases s <;> simp only [extended_zero, extended_negative, extended_positive, cmp_coe]
          · exact congrArg some ((cmp_eq_lt_iff _ _).mpr (neg_lt_zero.mpr (above positive))).symm
          · exact congrArg some ((cmp_eq_gt_iff _ _).mpr (above positive)).symm
      | finite s' m' e' positive' =>
          cases s <;> cases s' <;>
            simp only [extended_negative, extended_positive, cmp_coe, cmp_neg]
          · rw [UnpackedFloat.compare, compare_magnitudes h.1 h'.1, cmp_swap]
          · exact congrArg some ((cmp_eq_lt_iff _ _).mpr
              ((neg_lt_zero.mpr (above positive)).trans (above positive'))).symm
          · exact congrArg some ((cmp_eq_gt_iff _ _).mpr
              ((neg_lt_zero.mpr (above positive')).trans (above positive))).symm
          · rw [UnpackedFloat.compare, compare_magnitudes h.1 h'.1]

theorem extended_finite_inj {s s' : Sign} {m m' : Nat} {e e' : Int} {positive : 0 < m}
    {positive' : 0 < m'} :
    extended (.finite s m e positive) = extended (.finite s' m' e' positive') ↔
      (s.apply m * 2 ^ e : ℚ) = s'.apply m' * 2 ^ e' := by
  simp only [extended, WithBot.coe_inj, WithTop.coe_inj]

theorem extended_finite_ne_zero {s t : Sign} {m : Nat} {e : Int} {positive : 0 < m} :
    extended (.finite s m e positive) ≠ extended (.zero t) := by
  have nonzero : (s.apply m : Int) ≠ 0 := by
    cases s <;> simp only [Sign.apply] <;> omega
  simp only [extended, ne_eq, WithBot.coe_inj, WithTop.coe_inj]
  positivity

end Order

section Rounding

variable {m : Nat} {e : Int}

theorem targetExponent_total (m : Nat) (e : Int) :
    Format.binary64.targetExponent (totalExponent m e) = max (m.log2 + e - 52) (-1074) := by
  show max ((m.log2 : Int) + 1 + e - 53) (-1074) = _
  congr 1
  ring

/-- A mantissa that fits is rounded by filling it up with zeros. -/
theorem round_of_fits (s : Sign) (positive : 0 < m) (fits : m < 2 ^ 53) (least : -1074 ≤ e) :
    ∃ (n : Nat) (positive' : 0 < m * 2 ^ n), Canonical (m * 2 ^ n) (e - n) ∧
      UnpackedFloat.round Format.binary64 s m e = .finite s (m * 2 ^ n) (e - n) positive' := by
  have places : m.log2 < 53 := (Nat.log2_lt positive.ne').mpr fits
  obtain ⟨n, target⟩ : ∃ n : Nat, max ((m.log2 : Int) + e - 52) (-1074) = e - n :=
    ⟨(e - max ((m.log2 : Int) + e - 52) (-1074)).toNat, by omega⟩
  have positive' : 0 < m * 2 ^ n := Nat.mul_pos positive (Nat.two_pow_pos n)
  have filled : (m * 2 ^ n).log2 = m.log2 + n := log2_mul_two_pow positive n
  have canonical : Canonical (m * 2 ^ n) (e - n) := by
    refine ⟨(Nat.log2_lt positive'.ne').mp (by omega), by omega, ?_⟩
    rw [← Nat.le_log2 positive'.ne']
    omega
  refine ⟨n, positive', canonical, ?_⟩
  have amount : (e - (e - n)).toNat = n := by omega
  have exact := roundWithAccuracy_exact s positive' canonical 0
  rw [pow_zero, mul_one, Nat.cast_zero, sub_zero] at exact
  rw [UnpackedFloat.round, targetExponent_total, target]
  simp only [decreaseExponent, amount, Nat.shiftLeft_eq, exact]

theorem mantissa_shiftRight (a : ExtendedMantissa) (n : Nat) :
    (a >>> n).mantissa = a.mantissa / 2 ^ n := by
  show (n.repeat ExtendedMantissa.shiftRightOne a).mantissa = _
  induction n with
  | zero => simp [Nat.repeat]
  | succ n ih =>
      rw [Nat.repeat, ExtendedMantissa.shiftRightOne]
      simp only [ih, Nat.div_div_eq_div_mul, pow_succ]

theorem roundedMantissa_le (a : ExtendedMantissa) :
    a.mantissa ≤ a.roundedMantissa ∧ a.roundedMantissa ≤ a.mantissa + 1 := by
  obtain ⟨m, r, s⟩ := a
  cases r <;> cases s <;>
    simp only [ExtendedMantissa.roundedMantissa, ExtendedMantissa.accuracy,
      Accuracy.roundToNearestEven] <;> omega

/-- A mantissa of all places, or carried over to one more, is brought into canonical form. -/
theorem carry_exact (full : 2 ^ 52 ≤ m) (bound : m ≤ 2 ^ 53) (least : -1074 ≤ e) :
    ∃ m' e', 0 < m' ∧ Canonical m' e' ∧ (m' : ℚ) * 2 ^ e' = m * 2 ^ e ∧
      shiftToTargetExponent Format.binary64 m e .exact = (⟨m', false, false⟩, e') := by
  obtain fits | rfl := bound.lt_or_eq
  · have canonical : Canonical m e := ⟨fits, least, .inl full⟩
    have shifted := shiftToTargetExponent_exact canonical (by omega) 0
    rw [pow_zero, mul_one, Nat.cast_zero, sub_zero] at shifted
    exact ⟨m, e, by omega, canonical, rfl, shifted⟩
  · have canonical : Canonical (2 ^ 52) (e + 1) := ⟨by decide, by omega, .inl le_rfl⟩
    have shifted := shiftToTargetExponent_exact canonical (by decide) 1
    rw [Nat.cast_one, add_sub_cancel_right] at shifted
    refine ⟨2 ^ 52, e + 1, by decide, canonical, ?_, shifted⟩
    rw [zpow_add₀ two_ne_zero]
    push_cast
    ring

/-- A mantissa of at least 53 places is shifted to its leading ones, rounded, and carried over if
necessary. -/
theorem roundWithAccuracy_of_log2 (s : Sign) {n : Nat} (log : m.log2 = 52 + n)
    (least : -1074 ≤ e + n) :
    ∃ m' e' positive', Canonical m' e' ∧
      (m' : ℚ) * 2 ^ e' =
        ((⟨m, false, false⟩ : ExtendedMantissa) >>> n).roundedMantissa * 2 ^ (e + n) ∧
      roundWithAccuracy Format.binary64 s m e .exact = .finite s m' e' positive' := by
  have positive : m ≠ 0 := by
    rintro rfl
    rw [Nat.log2_zero] at log
    omega
  have target : Format.binary64.targetExponent (totalExponent m e) = e + n := by
    rw [targetExponent_total]
    omega
  have amount : (e + n - e).toNat = n := by omega
  have full : 2 ^ 52 ≤ m / 2 ^ n := by
    rw [Nat.le_div_iff_mul_le (Nat.two_pow_pos n), ← pow_add, ← log]
    exact Nat.log2_self_le positive
  have fits : m / 2 ^ n < 2 ^ 53 := by
    rw [Nat.div_lt_iff_lt_mul (Nat.two_pow_pos n), ← pow_add, show 53 + n = m.log2 + 1 by omega]
    exact Nat.lt_log2_self
  obtain ⟨below, above⟩ := roundedMantissa_le ((⟨m, false, false⟩ : ExtendedMantissa) >>> n)
  rw [mantissa_shiftRight] at below above
  obtain ⟨m', e', positive', canonical, value, carried⟩ :=
    carry_exact (full.trans below) (above.trans fits) least
  refine ⟨m', e', positive', canonical, value, ?_⟩
  rw [roundWithAccuracy, shiftToTargetExponent, target]
  simp only [shiftToExponent, amount, ExtendedMantissa.ofMantissaAndAccuracy, carried,
    positive'.ne', dif_neg, not_false_eq_true]

/-- A mantissa that is too long keeps its leading places, or is carried over. -/
theorem round_of_log2 (s : Sign) {n : Nat} (log : m.log2 = 52 + n) (least : -1074 ≤ e) :
    ∃ m' e' positive', Canonical m' e' ∧
      (m' : ℚ) * 2 ^ e' =
        ((⟨m, false, false⟩ : ExtendedMantissa) >>> n).roundedMantissa * 2 ^ (e + n) ∧
      UnpackedFloat.round Format.binary64 s m e = .finite s m' e' positive' := by
  have target : Format.binary64.targetExponent (totalExponent m e) = e + n := by
    rw [targetExponent_total]
    omega
  have none : (e - (e + n)).toNat = 0 := by omega
  obtain ⟨m', e', positive', canonical, value, rounded⟩ :=
    roundWithAccuracy_of_log2 s log (by omega : -1074 ≤ e + n)
  refine ⟨m', e', positive', canonical, value, ?_⟩
  rw [UnpackedFloat.round, target]
  simp only [decreaseExponent, none, Nat.shiftLeft_zero, Nat.cast_zero, sub_zero, rounded]

/-- Nothing that is not zero is rounded to zero, as long as its exponent is not too small. -/
theorem exists_round (s : Sign) (positive : 0 < m) (least : -1074 ≤ e) :
    ∃ m' e' positive', Canonical m' e' ∧
      UnpackedFloat.round Format.binary64 s m e = .finite s m' e' positive' := by
  obtain fits | long := lt_or_ge m (2 ^ 53)
  · obtain ⟨n, positive', canonical, rounded⟩ := round_of_fits s positive fits least
    exact ⟨_, _, positive', canonical, rounded⟩
  · obtain ⟨n, log⟩ : ∃ n : Nat, m.log2 = 52 + n :=
      ⟨m.log2 - 52, by have := (Nat.le_log2 positive.ne').mpr long; omega⟩
    obtain ⟨m', e', positive', canonical, -, rounded⟩ := round_of_log2 s log least
    exact ⟨m', e', positive', canonical, rounded⟩

end Rounding

section Comparisons

variable {x y : Float}

theorem beq_iff : (x == y) = true ↔ x.toModel.unpack.compare y.toModel.unpack = some .eq := by
  show (x.toModel.unpack.compare y.toModel.unpack == some Ordering.eq) = true ↔ _
  exact beq_iff_eq

theorem lt_iff : x < y ↔ x.toModel.unpack.compare y.toModel.unpack = some .lt := by
  show decide ((x.toModel.unpack.compare y.toModel.unpack == some Ordering.lt) = true) = true ↔ _
  rw [decide_eq_true_iff]
  exact beq_iff_eq

@[simp] theorem unpack_zero : (0 : Float).toModel.unpack = .zero .positive := rfl

@[simp] theorem unpack_one :
    (1 : Float).toModel.unpack = .finite .positive (2 ^ 52) (-52) (by decide) := rfl

/-- What is equal to one is not equal to zero. -/
theorem beq_zero_of_beq_one (h : (x == 1) = true) : (x == 0) = false := by
  rw [beq_iff, unpack_one] at h
  rw [Bool.eq_false_iff, Ne, beq_iff, unpack_zero]
  cases parts : x.toModel.unpack with
  | notANumber => nofun
  | infinity s => cases s <;> nofun
  | zero s =>
      rw [parts] at h
      cases h
  | finite s m e positive => cases s <;> nofun

/-- Nothing but one is equal to one. -/
theorem eq_one_of_beq (h : (x == 1) = true) : x = 1 := by
  rw [beq_iff, unpack_one] at h
  apply unpack_injective
  rw [unpack_one]
  cases parts : x.toModel.unpack with
  | notANumber | zero s =>
      rw [parts] at h
      cases h
  | infinity s =>
      rw [parts] at h
      cases s <;> cases h
  | finite s m e positive =>
      rw [parts] at h
      cases s with
      | negative => cases h
      | positive =>
          have equal : (compare e (-52)).then (compare m (2 ^ 52)) = .eq := Option.some_inj.mp h
          obtain ⟨exponents, mantissas⟩ := Ordering.then_eq_eq.mp equal
          obtain rfl := compare_eq_iff_eq.mp exponents
          obtain rfl := compare_eq_iff_eq.mp mantissas
          rfl

def quantity (x : Float) : WithBot (WithTop ℚ) := extended x.toModel.unpack

theorem compare_eq (number : x.isNaN = false) (number' : y.isNaN = false) :
    x.toModel.unpack.compare y.toModel.unpack = some (cmp (quantity x) (quantity y)) :=
  compare_eq_cmp (representable_unpack x) (representable_unpack y) number number'

theorem lt_iff_quantity (number : x.isNaN = false) (number' : y.isNaN = false) :
    x < y ↔ quantity x < quantity y := by
  rw [lt_iff, compare_eq number number', Option.some_inj, cmp_eq_lt_iff]

theorem le_iff_quantity (number : x.isNaN = false) (number' : y.isNaN = false) :
    x ≤ y ↔ quantity x ≤ quantity y := by
  have le : x ≤ y ↔ (x.toModel.unpack.compare y.toModel.unpack).any Ordering.isLE = true :=
    decide_eq_true_iff
  rw [le, compare_eq number number', Option.any_some, Ordering.isLE_iff_ne_gt, cmp_eq_gt_iff,
    not_lt]

theorem beq_iff_quantity (number : x.isNaN = false) (number' : y.isNaN = false) :
    (x == y) = true ↔ quantity x = quantity y := by
  rw [beq_iff, compare_eq number number', Option.some_inj, cmp_eq_eq_iff]

@[simp] theorem lt_sub_zero_iff : y < x - 0 ↔ y < x := by
  simp [lt_iff]

@[simp] theorem add_zero_lt_iff : x + 0 < y ↔ x < y := by
  rw [lt_iff, lt_iff]
  obtain same | ⟨zero, zero'⟩ := unpack_add_zero x
  · rw [same]
  · rw [zero, zero']
    cases y.toModel.unpack with
    | infinity s | finite s => cases s <;> rfl
    | _ => rfl

theorem beq_zero_iff : (x == 0) = true ↔ ∃ s, x.toModel.unpack = .zero s := by
  rw [beq_iff, unpack_zero]
  cases x.toModel.unpack with
  | notANumber => exact iff_of_false nofun nofun
  | infinity s => exact iff_of_false (by cases s <;> nofun) nofun
  | zero s => exact iff_of_true rfl ⟨s, rfl⟩
  | finite s m e positive => exact iff_of_false (by cases s <;> nofun) nofun

/-- The opposite of a number other than zero is other than zero. -/
theorem mul_neg_one_beq_zero (nonzero : (x == 0) = false) : (x * -1 == 0) = false := by
  rw [Bool.eq_false_iff, Ne, beq_zero_iff] at nonzero ⊢
  rw [unpack_mul_neg_one]
  rintro ⟨s, zero⟩
  cases parts : x.toModel.unpack with
  | zero t => exact nonzero ⟨t, parts⟩
  | _ =>
      rw [parts] at zero
      cases zero

theorem number_of_finite (finite : x.isFinite = true) : x.isNaN = false := by
  have finite : x.toModel.unpack.isFinite = true := finite
  show x.toModel.unpack.isNaN = false
  cases parts : x.toModel.unpack with
  | notANumber =>
      rw [parts] at finite
      cases finite
  | _ => rfl

end Comparisons

section Differences

theorem repacked_ne_zero {s t : Sign} {m : Nat} {e : Int} {positive : 0 < m}
    (h : Canonical m e) : repacked (.finite s m e positive) ≠ .zero t := by
  obtain high | overflow := le_or_gt e 971
  · rw [repacked_of_le h high]
    nofun
  · rw [repacked_of_lt overflow]
    nofun

/-- A mantissa and its sign with the least exponent of two. -/
theorem apply_shift (s : Sign) (m : Nat) {e least : Int} (h : least ≤ e) :
    (s.apply (m * 2 ^ (e - least).toNat : Nat) : ℚ) * 2 ^ least = s.apply m * 2 ^ e := by
  have power : (2 : ℚ) ^ e = 2 ^ (e - least).toNat * 2 ^ least := by
    rw [← zpow_natCast, ← zpow_add₀ two_ne_zero]
    congr 1
    omega
  rw [power]
  cases s <;> simp only [Sign.apply] <;> push_cast <;> ring

/-- Numbers in canonical form have the difference zero if they are equal only. -/
theorem repacked_sub_iff {s s' : Sign} {m m' : Nat} {e e' : Int} {positive : 0 < m}
    {positive' : 0 < m'} (h : Canonical m e) (h' : Canonical m' e') :
    (∃ t, repacked (UnpackedFloat.sub Format.binary64 (.finite s m e positive)
      (.finite s' m' e' positive')) = .zero t) ↔ (s.apply m * 2 ^ e : ℚ) = s'.apply m' * 2 ^ e' := by
  set least := min e e' with hleast
  set a : Int := s.apply (m * 2 ^ (e - least).toNat : Nat) -
    s'.apply (m' * 2 ^ (e' - least).toNat : Nat) with ha
  have low : -1074 ≤ least := le_min h.least h'.least
  have difference : UnpackedFloat.sub Format.binary64 (.finite s m e positive)
      (.finite s' m' e' positive') = normalize Format.binary64 a least .positive := by
    simp only [UnpackedFloat.sub, decreaseExponent, Nat.shiftLeft_eq, a, hleast]
  have values : (a : ℚ) * 2 ^ least = s.apply m * 2 ^ e - s'.apply m' * 2 ^ e' := by
    rw [ha, Int.cast_sub, sub_mul, apply_shift s m (min_le_left e e'),
      apply_shift s' m' (min_le_right e e')]
  have equal : (s.apply m * 2 ^ e : ℚ) = s'.apply m' * 2 ^ e' ↔ a = 0 := by
    rw [← sub_eq_zero, ← values, mul_eq_zero, Int.cast_eq_zero]
    exact or_iff_left (by positivity)
  rw [difference, equal, UnpackedFloat.normalize]
  rcases lt_trichotomy a 0 with below | zero | above
  · obtain ⟨m, e, positive, canonical, rounded⟩ :=
      exists_round .negative (show 0 < (-a).toNat by omega) low
    rw [compare_lt_iff_lt.mpr below]
    simp only [rounded]
    exact iff_of_false (fun ⟨_, same⟩ => repacked_ne_zero canonical same) below.ne
  · rw [compare_eq_iff_eq.mpr zero]
    exact iff_of_true ⟨_, unpack_packedZero⟩ zero
  · obtain ⟨m, e, positive, canonical, rounded⟩ :=
      exists_round .positive (show 0 < a.toNat by omega) low
    rw [compare_gt_iff_gt.mpr above]
    simp only [rounded]
    exact iff_of_false (fun ⟨_, same⟩ => repacked_ne_zero canonical same) above.ne'

variable {x y : Float}

theorem unpack_sub (x y : Float) : (x - y).toModel.unpack =
    repacked (UnpackedFloat.sub Format.binary64 x.toModel.unpack y.toModel.unpack) := rfl

/-- Finite numbers have the difference zero if they are equal only. -/
theorem sub_beq_zero_iff (finite : x.isFinite = true) (finite' : y.isFinite = true) :
    (x - y == 0) = true ↔ (x == y) = true := by
  rw [beq_zero_iff, beq_iff_quantity (number_of_finite finite) (number_of_finite finite'),
    unpack_sub, quantity, quantity]
  have finite : x.toModel.unpack.isFinite = true := finite
  have finite' : y.toModel.unpack.isFinite = true := finite'
  have h := representable_unpack x
  have h' := representable_unpack y
  generalize x.toModel.unpack = u at finite h ⊢
  generalize y.toModel.unpack = w at finite' h' ⊢
  cases u with
  | notANumber | infinity s => cases finite
  | zero s =>
      cases w with
      | notANumber | infinity s' => cases finite'
      | zero s' =>
          refine iff_of_true ?_ rfl
          cases s <;> cases s' <;> exact ⟨_, unpack_packedZero⟩
      | finite s' m' e' positive' =>
          refine iff_of_false (fun ⟨t, same⟩ => ?_) extended_finite_ne_zero.symm
          exact repacked_ne_zero h'.1 same
  | finite s m e positive =>
      cases w with
      | notANumber | infinity s' => cases finite'
      | zero s' =>
          refine iff_of_false (fun ⟨t, same⟩ => ?_) extended_finite_ne_zero
          exact repacked_ne_zero h.1 same
      | finite s' m' e' positive' =>
          rw [extended_finite_inj]
          exact repacked_sub_iff h.1 h'.1

/-- The magnitude of zero only is at most zero. -/
@[simp] theorem abs_le_zero_iff : x.abs ≤ 0 ↔ (x == 0) = true := by
  have le : x.abs ≤ 0 ↔
      (x.abs.toModel.unpack.compare (.zero .positive)).any Ordering.isLE = true :=
    decide_eq_true_iff
  rw [le, unpack_abs, beq_zero_iff]
  cases x.toModel.unpack with
  | notANumber => exact iff_of_false nofun nofun
  | infinity s => exact iff_of_false nofun nofun
  | zero s => exact iff_of_true rfl ⟨s, rfl⟩
  | finite s m e positive => exact iff_of_false nofun nofun

end Differences

end MipModel.Binary64
