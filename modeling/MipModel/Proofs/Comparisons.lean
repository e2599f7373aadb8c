import MipModel.Proofs.Enclosures
import MipModel.Proofs.RingLaws
import MipModel.Proofs.Rows

/-!
# Comparisons in normal form

A comparison of two polynomials is stored as a comparison of their difference with a number. Nothing
is lost by that: the stored form is satisfied exactly when the values of the two sides are related,
and it does not matter which of the sides is written first (`compare_normalizes`).

With the sides exchanged every stored coefficient changes its sign. The terms stand in the same
places, so the two forms are also evaluated alike, up to signs, and fail for the same variable.
-/

namespace MipModel

open MipModel.Polynomial

namespace Polynomial

variable {p q : Polynomial Rat} {v : Assignment Rat}

/-- A difference the other way round. -/
theorem Canonical.subtract_eq_negate (hp : p.Canonical) (hq : q.Canonical) :
    q.subtract p = (p.subtract q).negate := by
  apply eq_of_value_eq (hq.subtract hp) (hp.subtract hq).negate
  intro w
  simp [hp.ordered, hq.ordered]

theorem Normal.constantTerm_negate (h : p.Normal) : p.negate.constantTerm = -p.constantTerm := by
  have found := SortedTable.find?_map_values Neg.neg p.toList Monomial.one
  rw [h.negate_eq, constantTerm, constantTerm, coefficient, coefficient, found, toList]
  cases p.terms.find? Monomial.one with
  | none => exact (neg_zero (G := Rat)).symm
  | some c => rfl

theorem Normal.withoutConstant_negate (h : p.Normal) :
    p.negate.withoutConstant = p.withoutConstant.negate := by
  rw [h.withoutConstant.negate_eq, h.negate_eq]
  refine congrArg (fun entries => Polynomial.mk ⟨entries⟩) ?_
  exact List.filter_map ..

/-- Terms of opposite signs are evaluated alike. -/
theorem evaluateTerm_neg (v : Assignment Rat) (m : Monomial) (c : Rat) :
    evaluateTerm v m (-c) = (evaluateTerm v m c).map Neg.neg := by
  refine Build.foldlM_hom (fun product name => ?_) m.names c
  cases lookup v name with
  | error e => rfl
  | ok a => exact congrArg Except.ok (neg_mul product a)

/-- A negation evaluates to the negative, or fails for the same variable. -/
theorem Normal.evaluate_negate (h : p.Normal) (v : Assignment Rat) :
    p.negate.evaluate v = (p.evaluate v).map Neg.neg := by
  rw [h.negate_eq, evaluate, toList, List.foldlM_map, ← neg_zero (G := Rat)]
  refine Build.foldlM_hom (fun total t => ?_) p.toList 0
  rw [evaluateTerm_neg]
  cases evaluateTerm v t.1 t.2 with
  | error e => rfl
  | ok a => exact congrArg Except.ok (neg_add total a).symm

end Polynomial

namespace Comparison

/-- Numbers of opposite signs stand in the relation with its sides exchanged. -/
theorem holds_flip_neg (comparison : Comparison) (y z tolerance : Rat) :
    comparison.flip.holds (-y) (-z) tolerance = comparison.holds y z tolerance := by
  cases comparison with
  | eq =>
      have magnitude : Scalar.abs (-y - -z) = Scalar.abs (y - z) := by
        simpa [neg_add_eq_sub] using abs_sub_comm z y
      rw [flip, holds, holds, magnitude]
  | le | lt | ge | gt =>
      rw [flip, holds, holds, decide_eq_decide]
      constructor <;> intro h <;> simp only [ge_iff_le] at * <;> linarith

end Comparison

namespace Constraint

variable {p q : Polynomial Rat}

/-- A constraint is the same demand whichever of the two sides is written first. -/
theorem isSatisfied_compare_flip (hp : p.Canonical) (hq : q.Canonical) (comparison : Comparison)
    (v : Assignment Rat) (tolerance : Rat) :
    (compare q comparison.flip p).isSatisfied v tolerance =
      (compare p comparison q).isSatisfied v tolerance := by
  have normal : (p.subtract q).Normal := (canonical_iff.mp (hp.subtract hq)).1
  simp only [compare, isSatisfied]
  rw [hp.subtract_eq_negate hq, normal.withoutConstant_negate, normal.constantTerm_negate,
    normal.withoutConstant.evaluate_negate]
  cases (p.subtract q).withoutConstant.evaluate v with
  | error e => rfl
  | ok y => exact congrArg Except.ok (comparison.holds_flip_neg y _ tolerance)

/-- The stored form of a comparison is canonical, has no constant term on the left and mentions no
other variables. It is satisfied exactly when the values of the two sides are related, strict
relations being checked like the others, and the same is demanded with the sides exchanged. -/
theorem compare_normalizes (hp : p.Canonical) (hq : q.Canonical) (comparison : Comparison) :
    let c := compare p comparison q
    (c.lhs.Canonical ∧ Monomial.one ∉ c.lhs.terms.keys ∧
      ∀ x ∈ c.lhs.vars, x ∈ p.vars ∨ x ∈ q.vars) ∧
    (∀ v : Assignment Rat, (∀ x ∈ p.vars, v.Assigns x) → (∀ x ∈ q.vars, v.Assigns x) →
      ∃ y z result, p.evaluate v = .ok y ∧ q.evaluate v = .ok z ∧
        c.isSatisfied v 0 = .ok result ∧ (result = true ↔ comparison.Relates y z)) ∧
    ∀ v tolerance,
      (compare q comparison.flip p).isSatisfied v tolerance = c.isSatisfied v tolerance := by
  intro c
  refine ⟨⟨?_, ?_, ?_⟩, ?_, isSatisfied_compare_flip hp hq comparison⟩
  · exact (hp.subtract hq).withoutConstant
  · exact one_notMem_withoutConstant _
  · have left : p.Over fun x => x ∈ p.vars ∨ x ∈ q.vars := over_iff_vars.mpr fun x => Or.inl
    have right : q.Over fun x => x ∈ p.vars ∨ x ∈ q.vars := over_iff_vars.mpr fun x => Or.inr
    exact over_iff_vars.mp (left.subtract right).withoutConstant
  · intro v assigned assigned'
    have left := over_iff_vars.mpr assigned
    have right := over_iff_vars.mpr assigned'
    obtain ⟨y, means⟩ := HasValue.exists_means ⟨hp.ordered, left⟩
    obtain ⟨z, means'⟩ := HasValue.exists_means ⟨hq.ordered, right⟩
    have evaluated := evaluate_eq_ok_iff.mpr ⟨(left.subtract right).withoutConstant, rfl⟩
    have checked : c.isSatisfied v 0 = .ok (comparison.holds _ c.rhs 0) :=
      congrArg (fun o => o >>= _) evaluated
    refine ⟨y, z, _, means.2, means'.2, checked, ?_⟩
    rw [← satisfied_compare_iff means means', Satisfied, checked]
    exact ⟨congrArg Except.ok, Except.ok.inj⟩

/-- The squares on both sides cancel. The assignment lies on the border of what is left, which a
strict relation does not exclude. -/
theorem border_satisfied :
    let x : Polynomial Rat := .var "x"
    let y : Polynomial Rat := .var "y"
    let p := ((x.multiply x).add ((x.multiply y).scale 2)).add (constant 3)
    let q := ((x.multiply x).subtract y).add (constant 7)
    let v : Assignment Rat := fun name =>
      if name = "x" then some 1 else if name = "y" then some (4 / 3) else none
    p.Canonical ∧ q.Canonical ∧ (∀ x ∈ p.vars, v.Assigns x) ∧ (∀ x ∈ q.vars, v.Assigns x) ∧
      (compare p .lt q).lhs.toList = [(⟨["x", "y"]⟩, 2), (⟨["y"]⟩, 1)] ∧ (compare p .lt q).rhs = 4 ∧
      (compare p .lt q).isSatisfied v 0 = .ok true ∧
      (compare q .gt p).isSatisfied v 0 = .ok true := by
  intro x y p q v
  have single (name : String) : (var name : Polynomial Rat).Canonical :=
    (isVariable_var name).canonical (by decide) (by simp)
  have hp : p.Canonical := ((canonical_multiply x x).add ((canonical_multiply x y).scale 2)).add
    (canonical_constant 3)
  have hq : q.Canonical := ((canonical_multiply x x).subtract (single "y")).add
    (canonical_constant 7)
  obtain ⟨-, related, exchanged⟩ := compare_normalizes hp hq .lt
  have assigned : ∀ x ∈ p.vars, v.Assigns x :=
    (by decide +kernel : ∀ x ∈ p.vars, (v x).isSome = true)
  have assigned' : ∀ x ∈ q.vars, v.Assigns x :=
    (by decide +kernel : ∀ x ∈ q.vars, (v x).isSome = true)
  obtain ⟨y, z, result, left, right, checked, demanded⟩ := related v assigned assigned'
  have border : p.evaluate v = q.evaluate v := by decide +kernel
  obtain rfl : y = z := Except.ok.inj (left.symm.trans (border.trans right))
  obtain rfl : result = true := demanded.mpr le_rfl
  refine ⟨hp, hq, assigned, assigned', by decide +kernel, by decide +kernel, checked, ?_⟩
  exact (exchanged v 0).trans checked

end Constraint

end MipModel
