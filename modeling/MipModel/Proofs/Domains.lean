import MipModel.Proofs.Identity
import MipModel.Proofs.WholeNumbers

/-!
# Domains of variables

Every registered variable has been defined by options (`Model.Reachable.defined`). At tolerance zero
it admits what its bounds do not exclude and, unless it is continuous, what is an integer
(`Variable.admits_iff`). The bounds of a binary variable lie between zero and one and are not
crossed, so it admits zero, one or both (`Variable.IsTruth`).
-/

namespace MipModel

section Defined

variable {α : Type} [Scalar α]

/-- A variable is what options have made under its name. -/
def Variable.Defined (v : Variable α) : Prop :=
  ∃ options : Variable.Options α, options.define v.name = .ok v

theorem invariant_defined : Invariant fun m : Model α => ∀ v ∈ m.vars.values, v.Defined where
  empty _ _ _ none := absurd none List.not_mem_nil
  addVar := by
    intro m name options v holds new defined w member
    rw [Model.values_addVars, List.mem_append] at member
    obtain old | single := member
    · exact holds w old
    · obtain rfl := List.mem_singleton.mp single
      exact ⟨options, Variable.Options.name_of_define defined ▸ defined⟩
  countVar h := h
  addConstraint _ h := h
  memoize _ _ h := h
  rollback := by
    intro m m' _ h v member
    obtain ⟨e, kept, rfl⟩ := List.mem_map.mp member
    exact h e.2 (List.mem_map_of_mem (List.mem_of_mem_take kept))
  storeFamily _ h := h
  objective _ h := h

theorem Model.Reachable.defined [Naming α] {m : Model α} (h : m.Reachable) :
    ∀ v ∈ m.vars.values, v.Defined :=
  invariant_defined.of_reachable h

end Defined

open Binary64

namespace Binary64

variable {x y : Float}

theorem number_of_lt (h : x < y) : x.isNaN = false ∧ y.isNaN = false := by
  rw [lt_iff] at h
  show x.toModel.unpack.isNaN = false ∧ y.toModel.unpack.isNaN = false
  cases parts : x.toModel.unpack <;> cases parts' : y.toModel.unpack <;> rw [parts, parts'] at h <;>
    first | exact ⟨rfl, rfl⟩ | cases h

theorem number_of_beq (h : (x == y) = true) : x.isNaN = false := by
  rw [beq_iff] at h
  show x.toModel.unpack.isNaN = false
  cases parts : x.toModel.unpack <;> rw [parts] at h <;> first | rfl | cases h

theorem number_of_integer (h : (integer? x).isSome = true) : x.isNaN = false := by
  unfold integer? at h
  show x.toModel.unpack.isNaN = false
  rw [← unpacked_parts]
  cases taken : parts x with
  | undefined =>
      rw [taken] at h
      cases h
  | infinite negative => rfl
  | finite negative m e =>
      rw [Parts.unpacked]
      split <;> rfl

/-- The greater of a number and anything else is a number that is no less. -/
theorem quantity_le_greatest (number : y.isNaN = false) (x : Float) :
    (greatest x y).isNaN = false ∧ quantity y ≤ quantity (greatest x y) := by
  unfold greatest
  rw [number, Bool.false_or]
  split
  next less =>
    have less := of_decide_eq_true less
    have number' := (number_of_lt less).2
    exact ⟨number', ((lt_iff_quantity number number').mp less).le⟩
  next => exact ⟨number, le_rfl⟩

/-- The lesser of a number and anything else is a number that is no greater. -/
theorem quantity_least_le (number : y.isNaN = false) (x : Float) :
    (least x y).isNaN = false ∧ quantity (least x y) ≤ quantity y := by
  unfold least
  rw [number, Bool.false_or]
  split
  next less =>
    have less := of_decide_eq_true less
    have number' := (number_of_lt less).1
    exact ⟨number', ((lt_iff_quantity number' number).mp less).le⟩
  next => exact ⟨number, le_rfl⟩

@[simp] theorem quantity_zero : quantity 0 = ((0 : ℚ) : WithTop ℚ) := rfl

@[simp] theorem quantity_one : quantity 1 = ((1 : ℚ) : WithTop ℚ) := by
  norm_num [quantity]

end Binary64

namespace Variable

variable {v : Variable Float} {x : Float}

/-- What a variable admits at tolerance zero. -/
theorem admits_iff : v.admits x 0 = true ↔ (∀ lo ∈ v.lower, ¬x < lo) ∧ (∀ hi ∈ v.upper, ¬hi < x) ∧
    (v.kind ≠ .continuous → (Scalar.integer? x).isSome = true) := by
  have lower : (!v.lower.any fun lo => decide (x < lo - 0)) = true ↔ ∀ lo ∈ v.lower, ¬x < lo := by
    cases v.lower with
    | none => simp
    | some lo => simp [lt_sub_zero_iff]
  have upper : (!v.upper.any fun hi => decide (hi + 0 < x)) = true ↔ ∀ hi ∈ v.upper, ¬hi < x := by
    cases v.upper with
    | none => simp
    | some hi => simp [add_zero_lt_iff]
  have whole : (v.kind == .continuous || isWhole x 0) = true ↔
      (v.kind ≠ .continuous → (Scalar.integer? x).isSome = true) := by
    rw [Bool.or_eq_true, isWhole_iff, beq_iff_eq, or_iff_not_imp_left]
  rw [← lower, ← upper, ← whole, ← and_assoc, ← Bool.and_eq_true, ← Bool.and_eq_true]
  rfl

/-- The bounds of a binary variable, in order between zero and one. -/
theorem Defined.exists_bounds (h : v.Defined) (binary : v.kind = .binary) :
    ∃ lo hi, v.lower = some lo ∧ v.upper = some hi ∧ lo.isNaN = false ∧ hi.isNaN = false ∧
      quantity 0 ≤ quantity lo ∧ quantity lo ≤ quantity hi ∧ quantity hi ≤ quantity 1 := by
  obtain ⟨o, defined⟩ := h
  have same := Options.eq_of_define defined
  have kind : o.kind = .binary := by rw [← binary, same]
  obtain ⟨number, above⟩ := quantity_le_greatest (y := 0) rfl (o.lower.getD 0)
  obtain ⟨number', below⟩ := quantity_least_le (y := 1) rfl (o.upper.getD 1)
  have lower : o.lowerBound = some (greatest (o.lower.getD 0) 0) := by
    rw [Options.lowerBound, kind]
    rfl
  have upper : o.upperBound = some (least (o.upper.getD 1) 1) := by
    rw [Options.upperBound, kind]
    rfl
  refine ⟨_, _, by rw [same, lower], by rw [same, upper], number, number', above, ?_, below⟩
  rw [Options.define, lower, upper] at defined
  dsimp only at defined
  split at defined
  next => cases defined
  next uncrossed => exact not_lt.mp (mt (lt_iff_quantity number' number).mpr uncrossed)

def IsTruth (x : Float) : Prop := (x == 0) = true ∨ (x == 1) = true

theorem IsTruth.number (h : IsTruth x) : x.isNaN = false := h.elim number_of_beq number_of_beq

theorem isTruth_iff (number : x.isNaN = false) :
    IsTruth x ↔ quantity x = quantity 0 ∨ quantity x = quantity 1 := by
  rw [IsTruth, beq_iff_quantity number rfl, beq_iff_quantity number rfl]

theorem IsTruth.isSome_integer? (h : IsTruth x) : (Scalar.integer? x).isSome = true := by
  refine (isSome_integer?_iff h.number).mpr ?_
  obtain zero | one := (isTruth_iff h.number).mp h
  · exact ⟨0, by simp [zero]⟩
  · exact ⟨1, by simp [one]⟩

/-- Zero and one are the integers between zero and one. -/
theorem isTruth_of_integer (integer : (Scalar.integer? x).isSome = true)
    (above : quantity 0 ≤ quantity x) (below : quantity x ≤ quantity 1) : IsTruth x := by
  have number := number_of_integer integer
  obtain ⟨k, same⟩ := (isSome_integer?_iff number).mp integer
  rw [same, quantity_zero, WithBot.coe_le_coe, WithTop.coe_le_coe] at above
  rw [same, quantity_one, WithBot.coe_le_coe, WithTop.coe_le_coe] at below
  have bit : k = 0 ∨ k = 1 := by
    have : 0 ≤ k := by exact_mod_cast above
    have : k ≤ 1 := by exact_mod_cast below
    omega
  rw [isTruth_iff number, same, quantity_zero, quantity_one]
  obtain rfl | rfl := bit
  · exact .inl (by rw [Int.cast_zero])
  · exact .inr (by rw [Int.cast_one])

/-- A bound of a binary variable excludes zero or one. -/
def Tightened (v : Variable Float) : Prop :=
  v.kind = .binary ∧ ((∃ lo ∈ v.lower, 0 < lo) ∨ ∃ hi ∈ v.upper, hi < 1)

/-- A binary variable admits zero and one only, and both of them unless it is tightened. -/
theorem Defined.admits_binary (h : v.Defined) (binary : v.kind = .binary) :
    (∀ x, v.admits x 0 = true → IsTruth x) ∧
      ((∀ x, IsTruth x → v.admits x 0 = true) ↔ ¬v.Tightened) := by
  obtain ⟨lo, hi, lower, upper, number, number', above, ordered, below⟩ := h.exists_bounds binary
  have discrete : v.kind ≠ .continuous := by
    rw [binary]
    nofun
  have admits (x : Float) : v.admits x 0 = true ↔
      ¬x < lo ∧ ¬hi < x ∧ (Scalar.integer? x).isSome = true := by
    rw [admits_iff, lower, upper]
    simp [discrete]
  have tightened : v.Tightened ↔ 0 < lo ∨ hi < 1 := by
    rw [Tightened, lower, upper]
    simp [binary]
  simp only [admits, tightened]
  refine ⟨fun x ⟨notBelow, notAbove, integer⟩ => ?_, fun all => ?_, fun loose x truth => ?_⟩
  · have number'' := number_of_integer integer
    rw [lt_iff_quantity number'' number, not_lt] at notBelow
    rw [lt_iff_quantity number' number'', not_lt] at notAbove
    exact isTruth_of_integer integer (above.trans notBelow) (notAbove.trans below)
  · rintro (positive | small)
    · exact (all 0 (.inl rfl)).1 positive
    · exact (all 1 (.inr rfl)).2.1 small
  · rw [lt_iff_quantity rfl number, lt_iff_quantity number' rfl, not_or, not_lt, not_lt] at loose
    rw [lt_iff_quantity truth.number number, lt_iff_quantity number' truth.number, not_lt, not_lt]
    obtain zero | one := (isTruth_iff truth.number).mp truth
    · rw [zero]
      exact ⟨loose.1, above.trans ordered, truth.isSome_integer?⟩
    · rw [one]
      exact ⟨ordered.trans below, loose.2, truth.isSome_integer?⟩

end Variable

end MipModel
