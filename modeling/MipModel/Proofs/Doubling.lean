import Mathlib
import MipModel.Scalar.Binary64

/-!
# Multiplication by one and by two

A finite binary64 number is a mantissa and an exponent in canonical form: the mantissa has all of
its 53 bits, or the exponent is the least one. Multiplication by one or two raises the exponent or,
where that is the least one, shifts the mantissa; nothing is rounded away, so as long as nothing
overflows the factor can be taken out again (`mul_injective`).
-/

namespace MipModel.Binary64

open Float.Model Float.Model.UnpackedFloat

/-- The mantissa fits, and it has no leading zeros unless the exponent is the least one. -/
structure Canonical (mantissa : Nat) (exponent : Int) : Prop where
  fits : mantissa < 2 ^ 53
  least : -1074 ≤ exponent
  normal : 2 ^ 52 ≤ mantissa ∨ exponent = -1074

section Packing

theorem toNat_implicit (fraction : BitVec 52) :
    (1#1 ++ fraction).toNat = 2 ^ 52 + fraction.toNat := by
  rw [BitVec.toNat_append, ← Nat.shiftLeft_add_eq_or_of_lt fraction.isLt]
  simp [Nat.shiftLeft_eq]

/-- What a pattern of bits stands for is in canonical form. -/
theorem canonical_of_unpack {bits : BitVec 64} {s : Sign} {m : Nat} {e : Int} {positive : 0 < m}
    (h : UnpackedFloat.unpack Format.binary64 bits = .finite s m e positive) : Canonical m e := by
  have small : (@unpackMantissa Format.binary64 bits).toNat < 2 ^ 52 := BitVec.isLt _
  unfold UnpackedFloat.unpack at h
  dsimp only at h
  split at h
  · split at h <;> cases h
  split at h
  next zero =>
    split at h
    · cases h
    · cases h
      refine ⟨small.trans (by decide), ?_, .inr ?_⟩ <;> simp [zero, Format.exponentBias]
  next nonzero =>
    cases h
    rw [toNat_implicit]
    have exponent : (@unpackExponent Format.binary64 bits).toNat ≠ 0 :=
      fun zero => nonzero (BitVec.eq_of_toNat_eq zero)
    refine ⟨by omega, ?_, .inl (by omega)⟩
    simp only [Format.exponentBias]
    omega

/-- The greatest exponent is not used for finite numbers. -/
theorem exponent_le_of_unpack {bits : BitVec 64} {s : Sign} {m : Nat} {e : Int} {positive : 0 < m}
    (h : UnpackedFloat.unpack Format.binary64 bits = .finite s m e positive) : e ≤ 971 := by
  have bound : (@unpackExponent Format.binary64 bits).toNat < 2 ^ 11 := BitVec.isLt _
  unfold UnpackedFloat.unpack at h
  dsimp only at h
  split at h
  · split at h <;> cases h
  next finite =>
    have exponent : (@unpackExponent Format.binary64 bits).toNat ≠ 2047 :=
      fun top => finite (BitVec.eq_of_toNat_eq top)
    split at h
    next zero =>
      split at h
      · cases h
      · cases h
        simp [zero, Format.exponentBias]
    next nonzero =>
      cases h
      simp only [Format.exponentBias]
      omega

theorem unpack_normal (s : Sign) {exponent : Nat} (low : 0 < exponent) (high : exponent < 2047)
    (fraction : BitVec 52) :
    UnpackedFloat.unpack Format.binary64
      (packComponents Format.binary64 s (BitVec.ofNat 11 exponent) fraction) =
        .finite s (2 ^ 52 + fraction.toNat) (exponent - 1075) (by positivity) := by
  have same : (BitVec.ofNat 11 exponent).toNat = exponent := by
    rw [BitVec.toNat_ofNat, Nat.mod_eq_of_lt (by omega)]
  have finite : BitVec.ofNat 11 exponent ≠ -1#_ := by
    intro all
    have := congrArg BitVec.toNat all
    rw [same] at this
    exact absurd this (by simp; omega)
  have nonzero : BitVec.ofNat 11 exponent ≠ 0#_ := by
    intro zero
    have := congrArg BitVec.toNat zero
    rw [same] at this
    exact absurd this (by simp; omega)
  unfold UnpackedFloat.unpack
  simp only [unpackMantissa_packComponents, unpackExponent_packComponents,
    unpackSign_packComponents, Sign.ofBitVec_toBitVec, finite, nonzero, if_false, toNat_implicit,
    same]
  congr 1

theorem unpack_subnormal (s : Sign) {fraction : BitVec 52} (positive : 0 < fraction.toNat) :
    UnpackedFloat.unpack Format.binary64 (packComponents Format.binary64 s 0#11 fraction) =
      .finite s fraction.toNat (-1074) positive := by
  have nonzero : fraction ≠ 0#_ := by
    rintro rfl
    exact absurd positive (by decide)
  have finite : 0#11 ≠ -1#_ := by decide
  unfold UnpackedFloat.unpack
  simp only [unpackMantissa_packComponents, unpackExponent_packComponents,
    unpackSign_packComponents, Sign.ofBitVec_toBitVec, finite, nonzero, if_false, if_true,
    dif_neg, not_false_eq_true]
  congr 1

@[simp] theorem unpack_packedInfinity (s : Sign) :
    UnpackedFloat.unpack Format.binary64 (packedInfinity Format.binary64 s) = .infinity s := by
  cases s <;> rfl

variable {s : Sign} {m : Nat} {e : Int} {positive : 0 < m}

theorem pack_finite : UnpackedFloat.pack Format.binary64 (.finite s m e positive) =
    if 2 ^ 11 ≤ (e + 1023 + 52).toNat + 1 then packedInfinity Format.binary64 s
    else if m.log2 + 1 = 53 then
      packComponents Format.binary64 s (BitVec.ofNat 11 (e + 1023 + 52).toNat) (BitVec.ofNat 52 m)
    else packComponents Format.binary64 s 0#11 (BitVec.ofNat 52 m) := rfl

/-- What is left of a number when it is packed and unpacked again. -/
def repacked (u : UnpackedFloat) : UnpackedFloat :=
  UnpackedFloat.unpack Format.binary64 (UnpackedFloat.pack Format.binary64 u)

/-- Finite numbers in canonical form are packed without loss as long as they do not overflow. -/
theorem repacked_of_le (h : Canonical m e) (high : e ≤ 971) :
    repacked (.finite s m e positive) = .finite s m e positive := by
  obtain ⟨small, least, normal⟩ := h
  have places : m.log2 < 53 := (Nat.log2_lt positive.ne').mpr small
  rw [repacked, pack_finite, if_neg (by omega)]
  split
  next long =>
    have implicit : 2 ^ 52 ≤ m := (Nat.le_log2 positive.ne').mp (by omega)
    rw [unpack_normal s (by omega) (by omega)]
    have fraction : (BitVec.ofNat 52 m).toNat = m - 2 ^ 52 := by
      rw [BitVec.toNat_ofNat]
      omega
    simp only [fraction, finite.injEq, true_and]
    omega
  next short =>
    have short' : m < 2 ^ 52 := (Nat.log2_lt positive.ne').mp (by omega)
    have fraction : (BitVec.ofNat 52 m).toNat = m := by
      rw [BitVec.toNat_ofNat, Nat.mod_eq_of_lt short']
    rw [unpack_subnormal s (by rwa [fraction])]
    simp only [fraction, finite.injEq, true_and]
    omega

/-- What overflows becomes infinite. -/
theorem repacked_of_lt (high : 971 < e) : repacked (.finite s m e positive) = .infinity s := by
  rw [repacked, pack_finite, if_pos (by omega), unpack_packedInfinity]

/-- Finite numbers in canonical form are packed without loss, unless they overflow. -/
theorem repacked_of_isFinite (h : Canonical m e)
    (fits : (repacked (.finite s m e positive)).isFinite = true) :
    repacked (.finite s m e positive) = .finite s m e positive := by
  refine repacked_of_le h (not_lt.mp fun high => ?_)
  rw [repacked_of_lt high] at fits
  cases fits

end Packing

section Rounding

/-- Nothing is rounded away when zeros are shifted out. -/
theorem shiftRight_exact (m n : Nat) :
    (⟨m * 2 ^ n, false, false⟩ : ExtendedMantissa) >>> n = ⟨m, false, false⟩ := by
  show n.repeat ExtendedMantissa.shiftRightOne _ = _
  induction n generalizing m with
  | zero => simp [Nat.repeat]
  | succ n ih =>
      have last : m * 2 ^ (n + 1) = m * 2 * 2 ^ n := by ring
      rw [Nat.repeat, last, ih (m * 2)]
      simp [ExtendedMantissa.shiftRightOne]

theorem log2_mul_two_pow {m : Nat} (positive : 0 < m) (n : Nat) :
    (m * 2 ^ n).log2 = m.log2 + n := by
  induction n with
  | zero => simp
  | succ n ih =>
      have last : m * 2 ^ (n + 1) = 2 * (m * 2 ^ n) := by ring
      rw [last, Nat.log2_two_mul (by positivity), ih, Nat.add_assoc]

/-- The exponent of a number in canonical form is the one aimed at. -/
theorem Canonical.targetExponent {m : Nat} {e : Int} (h : Canonical m e) (positive : 0 < m)
    (n : Nat) : Format.binary64.targetExponent (totalExponent (m * 2 ^ n) (e - n)) = e := by
  obtain ⟨small, least, normal⟩ := h
  have places : m.log2 < 53 := (Nat.log2_lt positive.ne').mpr small
  have total : totalExponent (m * 2 ^ n) (e - n) = m.log2 + 1 + e := by
    rw [totalExponent, log2_mul_two_pow positive]
    push_cast
    ring
  rw [total]
  show max ((m.log2 : Int) + 1 + e - 53) (-1074) = e
  rcases normal with implicit | lowest
  · have := (Nat.le_log2 positive.ne').mpr implicit
    omega
  · omega

theorem shiftToTargetExponent_exact {m : Nat} {e : Int} (h : Canonical m e) (positive : 0 < m)
    (n : Nat) : shiftToTargetExponent Format.binary64 (m * 2 ^ n) (e - n) .exact =
      (⟨m, false, false⟩, e) := by
  have amount : (e - (e - n)).toNat = n := by omega
  rw [shiftToTargetExponent, h.targetExponent positive]
  simp only [shiftToExponent, amount, ExtendedMantissa.ofMantissaAndAccuracy, shiftRight_exact,
    sub_add_cancel]

/-- A mantissa that ends in zeros is rounded by shifting them out. -/
theorem roundWithAccuracy_exact (s : Sign) {m : Nat} {e : Int} (positive : 0 < m)
    (h : Canonical m e) (n : Nat) :
    roundWithAccuracy Format.binary64 s (m * 2 ^ n) (e - n) .exact = .finite s m e positive := by
  have again := shiftToTargetExponent_exact h positive 0
  rw [pow_zero, mul_one, Nat.cast_zero, sub_zero] at again
  have rounded : (⟨m, false, false⟩ : ExtendedMantissa).roundedMantissa = m := rfl
  rw [roundWithAccuracy, shiftToTargetExponent_exact h positive]
  simp only [rounded, again, positive.ne', dif_neg, not_false_eq_true]

end Rounding

section Factors

/-- What multiplication by one (`k = 0`) or by two (`k = 1`) makes of a number. -/
def scaled (k : Nat) : UnpackedFloat → UnpackedFloat
  | .finite s m e positive =>
    if 2 ^ 52 ≤ m then .finite s m (e + k) positive
    else .finite s (m * 2 ^ k) e (Nat.mul_pos positive (Nat.two_pow_pos k))
  | u => u

variable {k : Nat} {s : Sign} {m : Nat} {e : Int}

theorem Canonical.scaled (h : Canonical m e) (positive : 0 < m) (small : k ≤ 1) :
    ∃ m' e' positive', Binary64.scaled k (.finite s m e positive) = .finite s m' e' positive' ∧
      Canonical m' e' ∧ ∃ n : Nat, m * 2 ^ 52 = m' * 2 ^ n ∧ e + (k - 52) = e' - n := by
  obtain ⟨fits, least, normal⟩ := h
  by_cases implicit : 2 ^ 52 ≤ m
  · refine ⟨m, e + k, positive, if_pos implicit, ⟨fits, by omega, .inl implicit⟩, 52, rfl, ?_⟩
    push_cast
    ring
  · have lowest : e = -1074 := normal.resolve_left implicit
    have shifted : 2 ^ k ≤ 2 := by
      interval_cases k <;> decide
    refine ⟨m * 2 ^ k, e, Nat.mul_pos positive (Nat.two_pow_pos k), if_neg implicit,
      ⟨by nlinarith, least, .inr lowest⟩, 52 - k, ?_, by omega⟩
    rw [mul_assoc, ← pow_add]
    congr 2
    omega

/-- The factor can be taken out of numbers in canonical form again. -/
theorem scaled_injective {u u' : UnpackedFloat} (small : k ≤ 1)
    (canonical : ∀ s m e positive, u = .finite s m e positive → Canonical m e)
    (canonical' : ∀ s m e positive, u' = .finite s m e positive → Canonical m e)
    (same : scaled k u = scaled k u') : u = u' := by
  cases u with
  | finite s m e positive =>
      cases u' with
      | finite s' m' e' positive' =>
          obtain ⟨-, least, normal⟩ := canonical s m e positive rfl
          obtain ⟨-, least', normal'⟩ := canonical' s' m' e' positive' rfl
          simp only [scaled] at same
          have factor : k = 0 ∨ k = 1 := by omega
          rcases factor with rfl | rfl <;> split_ifs at same <;>
            simp only [finite.injEq] at same ⊢ <;> exact ⟨same.1, by omega, by omega⟩
      | _ =>
          simp only [scaled] at same
          split_ifs at same
  | _ =>
      cases u' with
      | finite s' m' e' positive' =>
          simp only [scaled] at same
          split_ifs at same
      | _ => exact same

/-- The number two to the power of zero or one. -/
def IsPower (f : Float) (k : Nat) : Prop :=
  f.toModel.unpack = .finite .positive (2 ^ 52) (k - 52) (by decide)

theorem isPower_one : IsPower 1 0 := rfl

theorem isPower_two : IsPower 2 1 := rfl

/-- The product before it is packed, where it may be too large for the format. -/
theorem mul_unpack {x f : Float} (power : IsPower f k) (small : k ≤ 1)
    (number : x.isNaN = false) :
    UnpackedFloat.mul Format.binary64 x.toModel.unpack f.toModel.unpack =
      scaled k x.toModel.unpack := by
  have positive_right (s : Sign) : s * .positive = s := by cases s <;> rfl
  rw [power]
  cases parts : x.toModel.unpack with
  | notANumber =>
      have undefined : x.toModel.unpack.isNaN = false := number
      rw [parts] at undefined
      cases undefined
  | infinity s =>
      rw [UnpackedFloat.mul, positive_right]
      rfl
  | zero s =>
      rw [UnpackedFloat.mul, positive_right]
      rfl
  | finite s m e positive =>
      have canonical : Canonical m e := canonical_of_unpack parts
      obtain ⟨m', e', positive', result, canonical', n, mantissas, exponents⟩ :=
        canonical.scaled positive (s := s) small
      rw [UnpackedFloat.mul, positive_right, mantissas, exponents,
        roundWithAccuracy_exact s positive' canonical', result]

theorem toBitVec_mul (x y : Float) : (x * y).toModel.toBits.toBitVec =
    UnpackedFloat.pack Format.binary64
      (UnpackedFloat.mul Format.binary64 x.toModel.unpack y.toModel.unpack) := rfl

theorem unpack_mul {x f : Float} (power : IsPower f k) (small : k ≤ 1) (number : x.isNaN = false)
    (fits : x.isFinite = true → (x * f).isFinite = true) :
    (x * f).toModel.unpack = scaled k x.toModel.unpack := by
  have product : (x * f).toModel.unpack = repacked (scaled k x.toModel.unpack) := by
    rw [← mul_unpack power small number, repacked, ← toBitVec_mul]
    rfl
  cases parts : x.toModel.unpack with
  | notANumber =>
      have undefined : x.toModel.unpack.isNaN = false := number
      rw [parts] at undefined
      cases undefined
  | infinity s =>
      rw [product, parts]
      exact unpack_packedInfinity _
  | zero s =>
      rw [product, parts]
      exact unpack_packedZero
  | finite s m e positive =>
      obtain ⟨m', e', positive', result, canonical', -⟩ :=
        (canonical_of_unpack parts).scaled positive (s := s) small
      have finite : x.isFinite = true := by
        show x.toModel.unpack.isFinite = true
        rw [parts]
        rfl
      have fits : (x * f).toModel.unpack.isFinite = true := fits finite
      rw [product, parts, result] at fits
      rw [product, parts, result]
      exact repacked_of_isFinite canonical' fits

/-- A product with one or two is a number. -/
theorem isNaN_mul {x f : Float} (power : IsPower f k) (small : k ≤ 1) (number : x.isNaN = false)
    (fits : x.isFinite = true → (x * f).isFinite = true) : (x * f).isNaN = false := by
  have defined : x.toModel.unpack.isNaN = false := number
  show (x * f).toModel.unpack.isNaN = false
  rw [unpack_mul power small number fits]
  cases parts : x.toModel.unpack with
  | finite s m e positive =>
      rw [scaled]
      split <;> rfl
  | _ =>
      rw [parts] at defined
      exact defined

/-- Nothing is changed by a factor of one. -/
theorem mul_one_of_number {x : Float} (number : x.isNaN = false) : x * 1 = x := by
  have same : scaled 0 x.toModel.unpack = x.toModel.unpack := by
    cases x.toModel.unpack with
    | finite s m e positive =>
        rw [scaled]
        simp
    | _ => rfl
  have bits := toBitVec_mul x 1
  rw [mul_unpack isPower_one (Nat.zero_le 1) number, same] at bits
  have bits' := pack_unpack_of_valid x.toModel.valid
  exact Float.toBits_inj.mp (UInt64.toBitVec_inj.mp (bits.trans bits'))

/-- Numbers with the same parts are the same. -/
theorem unpack_injective {x y : Float} (same : x.toModel.unpack = y.toModel.unpack) : x = y := by
  have bits := (unpack_inj_of_valid x.toModel.valid y.toModel.valid).mp same
  exact Float.toBits_inj.mp (UInt64.toBitVec_inj.mp bits)

/-- A factor of one or two can be taken out again, if nothing overflows. -/
theorem mul_injective {x y f : Float} (power : IsPower f k) (small : k ≤ 1)
    (number : x.isNaN = false) (number' : y.isNaN = false)
    (fits : x.isFinite = true → (x * f).isFinite = true)
    (fits' : y.isFinite = true → (y * f).isFinite = true) (same : x * f = y * f) : x = y := by
  apply unpack_injective
  refine scaled_injective small (fun s m e positive => canonical_of_unpack)
    (fun s m e positive => canonical_of_unpack) ?_
  rw [← unpack_mul power small number fits, ← unpack_mul power small number' fits', same]

end Factors

end MipModel.Binary64
