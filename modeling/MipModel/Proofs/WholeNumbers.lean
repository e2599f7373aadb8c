import Mathlib
import MipModel.Proofs.Differences
import MipModel.Proofs.Numerals
import MipModel.Variable.Basic

/-!
# Whole numbers among binary64 numbers

A number is an integer if what it stands for is one (`integer?_eq_some_iff`). Rounding changes no
integer, and it makes a finite number an integer of at most 53 places, which is converted without
loss, so a finite number equals what it is rounded to just if it is an integer (`beq_round_iff`).
Being whole at tolerance zero then means to be an integer (`isWhole_iff`).
-/

namespace MipModel.Binary64

open Float.Model Float.Model.UnpackedFloat

variable {x y : Float} {negative : Bool} {m : Nat} {e : Int}

@[simp] theorem apply_signOf (negative : Bool) (m : Nat) :
    (signOf negative).apply m = withSign negative m := by
  cases negative <;> rfl

/-- A finite number stands for its mantissa times a power of two. -/
theorem quantity_of_parts (h : parts x = .finite negative m e) :
    quantity x = ((withSign negative m * 2 ^ e : ℚ) : WithTop ℚ) := by
  rw [quantity, ← unpacked_parts, h, Parts.unpacked]
  split
  next zero =>
    rw [extended_zero, zero]
    cases negative <;> simp [withSign]
  next nonzero => rw [extended, apply_signOf]

theorem quantity_of_infinite (h : parts x = .infinite negative) (q : ℚ) :
    quantity x ≠ (q : WithTop ℚ) := by
  rw [quantity, ← unpacked_parts, h, Parts.unpacked]
  cases negative with
  | true => exact WithBot.bot_ne_coe
  | false => exact fun same => WithTop.top_ne_coe (WithBot.coe_inj.mp same)

/-- Integers of 53 places are converted without loss. -/
theorem quantity_toFloat {k : Nat} (small : k < 2 ^ 53) :
    k.toUInt64.toFloat.isFinite = true ∧
      quantity k.toUInt64.toFloat = ((k : ℚ) : WithTop ℚ) := by
  have stored : k.toUInt64.toNat = k := Nat.mod_eq_of_lt (small.trans (by decide))
  have converted : k.toUInt64.toFloat.toModel.unpack = repacked
      (UnpackedFloat.normalize Format.binary64 (k.toUInt64.toNat : Int) 0 .positive) := rfl
  rw [stored, UnpackedFloat.normalize] at converted
  show k.toUInt64.toFloat.toModel.unpack.isFinite = true ∧ extended _ = _
  obtain rfl | positive := k.eq_zero_or_pos
  · rw [Nat.cast_zero]
    exact ⟨rfl, rfl⟩
  · obtain ⟨n, positive', canonical, rounded⟩ :=
      round_of_fits .positive positive small (by decide : -1074 ≤ (0 : Int))
    have back : repacked (.finite .positive _ _ positive') = .finite .positive _ _ positive' :=
      repacked_of_le canonical (by omega)
    rw [compare_gt_iff_gt.mpr (Int.natCast_pos.mpr positive)] at converted
    simp only [Int.toNat_natCast, rounded, back] at converted
    have power : ((k * 2 ^ n : Nat) : ℚ) * 2 ^ ((0 : Int) - n) = k := by
      rw [zero_sub, zpow_neg, zpow_natCast]
      push_cast
      exact mul_inv_cancel_right₀ (by positivity) _
    rw [converted, extended_positive, power]
    exact ⟨rfl, rfl⟩

theorem ofNat_eq_toFloat {k : Nat} (small : k < 2 ^ 53) : Float.ofNat k = k.toUInt64.toFloat := by
  have fast : Float.ofNat k = k.toUInt64.toFloat * 1 := by
    show Float.ofScientific k false 0 = _
    rw [Float.ofScientific, dif_pos ⟨small, Nat.zero_le _⟩]
    rfl
  rw [fast, mul_one_of_number (number_of_finite (quantity_toFloat small).1)]

theorem withSign_mul (negative : Bool) (a b : Nat) :
    withSign negative (a * b) = withSign negative a * b := by
  cases negative <;> simp [withSign]

@[simp] theorem natAbs_withSign (negative : Bool) (a : Nat) : (withSign negative a).natAbs = a := by
  cases negative <;> simp [withSign]

theorem scaled_eq_iff {n : Nat} {k : Int} : (withSign negative m * 2 ^ (-(n : Int)) : ℚ) = k ↔
    withSign negative m = k * (2 ^ n : Nat) := by
  rw [zpow_neg, zpow_natCast, ← div_eq_mul_inv, div_eq_iff (by positivity)]
  exact_mod_cast Iff.rfl

/-- A number is an integer if its quantity is. -/
theorem integer?_eq_some_iff (number : x.isNaN = false) {k : Int} :
    integer? x = some k ↔ quantity x = ((k : ℚ) : WithTop ℚ) := by
  unfold integer?
  cases h : parts x with
  | undefined => exact absurd h (parts_ne_undefined number)
  | infinite negative => exact iff_of_false nofun (quantity_of_infinite h k)
  | finite negative m e =>
      rw [quantity_of_parts h, WithBot.coe_inj, WithTop.coe_inj]
      dsimp only
      split
      next large =>
        obtain ⟨n, rfl⟩ := Int.eq_ofNat_of_zero_le large
        rw [Int.toNat_natCast, Nat.pow_eq, withSign_mul, Option.some_inj, zpow_natCast]
        exact_mod_cast Iff.rfl
      next small =>
        obtain ⟨n, rfl⟩ : ∃ n : Nat, e = -n := ⟨(-e).toNat, by omega⟩
        rw [scaled_eq_iff, neg_neg, Int.toNat_natCast, Nat.pow_eq]
        split
        next divides =>
          obtain ⟨q, rfl⟩ := Nat.dvd_of_mod_eq_zero divides
          rw [mul_comm, Nat.mul_div_cancel _ (Nat.two_pow_pos n), withSign_mul, Option.some_inj]
          exact (mul_left_inj' (by positivity)).symm
        next undivided =>
          refine iff_of_false nofun fun same => undivided ?_
          rw [← natAbs_withSign negative m, same, Int.natAbs_mul, Int.natAbs_natCast]
          exact Nat.mul_mod_left _ _

theorem isSome_integer?_iff (number : x.isNaN = false) :
    (integer? x).isSome = true ↔ ∃ k : Int, quantity x = ((k : ℚ) : WithTop ℚ) := by
  rw [Option.isSome_iff_exists]
  exact exists_congr fun k => integer?_eq_some_iff number

theorem quantity_neg {q : ℚ} (h : quantity x = (q : WithTop ℚ)) :
    quantity (-x) = ((-q : ℚ) : WithTop ℚ) := by
  rw [quantity] at h
  rw [quantity, unpack_neg]
  cases parts : x.toModel.unpack with
  | infinity s =>
      rw [parts] at h
      cases s with
      | negative => exact absurd h WithBot.bot_ne_coe
      | positive => exact absurd (WithBot.coe_inj.mp h) WithTop.top_ne_coe
  | finite s m e positive =>
      rw [parts] at h
      cases s with
      | negative =>
          rw [extended_negative, WithBot.coe_inj, WithTop.coe_inj] at h
          rw [← h, neg_neg]
          exact extended_positive positive
      | positive =>
          rw [extended_positive, WithBot.coe_inj, WithTop.coe_inj] at h
          rw [← h]
          exact extended_negative positive
  | _ =>
      rw [parts] at h
      obtain rfl : (0 : ℚ) = q := WithTop.coe_inj.mp (WithBot.coe_inj.mp h)
      rw [neg_zero]
      rfl

theorem isFinite_neg (finite : x.isFinite = true) : (-x).isFinite = true := by
  have finite : x.toModel.unpack.isFinite = true := finite
  show (-x).toModel.unpack.isFinite = true
  rw [unpack_neg]
  cases parts : x.toModel.unpack <;> rw [parts] at finite <;> exact finite

/-- A finite number that is not an integer by its exponent is rounded to the nearest one. -/
theorem quantity_round {n : Nat} (h : parts x = .finite negative m (-n)) (some : 0 < n) :
    (round x).isFinite = true ∧ quantity (round x) =
      ((withSign negative ((2 * m + 2 ^ n) / (2 * 2 ^ n)) : ℚ) : WithTop ℚ) := by
  obtain ⟨canonical, -⟩ := canonical_of_parts h
  have even : 2 ≤ 2 ^ n := Nat.le_self_pow some.ne' 2
  have small : (2 * m + 2 ^ n) / (2 * 2 ^ n) < 2 ^ 53 := by
    have fits := canonical.fits
    rw [Nat.div_lt_iff_lt_mul (by omega)]
    nlinarith
  obtain ⟨finite, quantity⟩ := quantity_toFloat small
  rw [← ofNat_eq_toFloat small] at finite quantity
  unfold round
  rw [h]
  dsimp only
  rw [if_neg (by omega), neg_neg, Int.toNat_natCast, Nat.pow_eq]
  cases negative with
  | false => exact ⟨finite, quantity⟩
  | true =>
      have negated := quantity_neg quantity
      refine ⟨isFinite_neg finite, negated.trans ?_⟩
      simp only [withSign, if_true, Int.cast_neg, Int.cast_natCast]

/-- A whole number is rounded to itself. -/
theorem withSign_rounded {n : Nat} {k : Int} (h : withSign negative m = k * (2 ^ n : Nat)) :
    withSign negative ((2 * m + 2 ^ n) / (2 * 2 ^ n)) = k := by
  have power : 0 < 2 ^ n := Nat.two_pow_pos n
  have magnitude : m = k.natAbs * 2 ^ n := by
    rw [← natAbs_withSign negative m, h, Int.natAbs_mul, Int.natAbs_natCast]
  have rounded : (2 * m + 2 ^ n) / (2 * 2 ^ n) = k.natAbs := by
    rw [magnitude]
    refine Nat.div_eq_of_lt_le ?_ ?_ <;> ring_nf <;> omega
  rw [magnitude, withSign_mul] at h
  rw [rounded]
  exact mul_right_cancel₀ (Int.natCast_ne_zero.mpr power.ne') h

/-- Exactly the integers are equal to what they are rounded to, which is finite if they are. -/
theorem beq_round_iff (finite : x.isFinite = true) :
    (round x).isFinite = true ∧ ((x == round x) = true ↔ (integer? x).isSome = true) := by
  have number := number_of_finite finite
  cases h : parts x with
  | undefined => exact absurd h (parts_ne_undefined number)
  | infinite negative =>
      have finite : x.toModel.unpack.isFinite = true := finite
      rw [← unpacked_parts, h] at finite
      cases finite
  | finite negative m e =>
      obtain large | ⟨n, some, rfl⟩ : 0 ≤ e ∨ ∃ n : Nat, 0 < n ∧ e = -n := by
        obtain large | small := le_or_gt 0 e
        · exact .inl large
        · exact .inr ⟨(-e).toNat, by omega, by omega⟩
      · have same : round x = x := by
          rw [round, h]
          exact if_pos large
        have integer : (integer? x).isSome = true := by
          rw [integer?, h]
          dsimp only
          rw [if_pos large]
          rfl
        rw [same]
        exact ⟨finite, iff_of_true ((beq_iff_quantity number number).mpr rfl) integer⟩
      · obtain ⟨finite', rounded⟩ := quantity_round h some
        refine ⟨finite', ?_⟩
        rw [beq_iff_quantity number (number_of_finite finite'), isSome_integer?_iff number, rounded]
        refine ⟨fun same => ⟨_, same⟩, fun ⟨k, same⟩ => ?_⟩
        have whole := same
        rw [quantity_of_parts h, WithBot.coe_inj, WithTop.coe_inj, scaled_eq_iff] at whole
        rw [same, withSign_rounded whole]

/-- What is not finite differs from what it is rounded to. -/
theorem sub_round_of_not_finite (infinite : x.isFinite = false) :
    integer? x = none ∧ (x - round x == 0) = false := by
  have infinite : (parts x).unpacked.isFinite = false := by
    rw [unpacked_parts]
    exact infinite
  have unchanged : integer? x = none ∧ round x = x := by
    unfold integer? round
    cases h : parts x with
    | undefined | infinite negative => exact ⟨rfl, rfl⟩
    | finite negative m e =>
        rw [h, Parts.unpacked] at infinite
        split at infinite <;> cases infinite
  refine ⟨unchanged.1, ?_⟩
  rw [unchanged.2, Bool.eq_false_iff, Ne, beq_zero_iff, unpack_sub]
  rw [unpacked_parts] at infinite
  generalize x.toModel.unpack = u at infinite
  rintro ⟨t, zero⟩
  cases u with
  | notANumber => cases zero
  | infinity s => cases s <;> cases zero
  | zero s | finite s m e positive => cases infinite

/-- At tolerance zero exactly the integers are whole. -/
theorem isWhole_iff : Variable.isWhole x 0 = true ↔ (Scalar.integer? x).isSome = true := by
  have whole : Variable.isWhole x 0 = true ↔ (x - round x).abs ≤ 0 := decide_eq_true_iff
  rw [whole, abs_le_zero_iff]
  cases finite : x.isFinite with
  | true =>
      obtain ⟨finite', equal⟩ := beq_round_iff finite
      exact (sub_beq_zero_iff finite finite').trans equal
  | false =>
      obtain ⟨none, different⟩ := sub_round_of_not_finite finite
      have none : Scalar.integer? x = Option.none := none
      rw [different, none]
      exact iff_of_false nofun nofun

end MipModel.Binary64
