import MipModel.Lp.Document
import MipModel.Proofs.Degrees
import MipModel.Proofs.Identity

/-!
# Normal forms

The operations on polynomials bring their results into normal form: terms in order, none of them
with the coefficient zero. The objective of a model is changed by these operations only, so it has a
normal form in every model that can be reached (`Reachable.normal_objective`).

A constraint has a normal form if it is a comparison of two polynomials. A caller can store any
other constraint as well, so this is a condition on models and not a fact about them.
-/

namespace MipModel

variable {α : Type} [Scalar α]

namespace Polynomial

/-- Every monomial has one term, in its place, and no coefficient is zero. -/
structure Normal (p : Polynomial α) : Prop where
  ordered : p.Ordered
  nonzero : ∀ t ∈ p.toList, (t.2 == 0) = false

variable {p : Polynomial α}

@[simp] theorem normal_zero : (zero : Polynomial α).Normal where
  ordered := ordered_zero
  nonzero _ none := absurd none List.not_mem_nil

theorem Normal.addTerm (h : p.Normal) (m : Monomial) (c : α) : (p.addTerm m c).Normal := by
  refine ⟨h.ordered.addTerm m c, ?_⟩
  obtain ⟨-, same⟩ | ⟨-, erased⟩ | ⟨nonzero, inserted⟩ := p.addTerm_cases m c
  · rw [same]
    exact h.nonzero
  · rw [erased]
    exact fun t member => h.nonzero t (List.filter_sublist.subset member)
  · rw [inserted]
    intro t member
    obtain rfl | earlier := SortedTable.mem_insertEntry member
    · exact nonzero
    · exact h.nonzero t earlier

theorem Normal.addTerms (h : p.Normal) (terms : List (Monomial × α)) :
    (p.addTerms terms).Normal := by
  induction terms generalizing p with
  | nil => exact h
  | cons t terms ih => exact ih (h.addTerm t.1 t.2)

/-- Whatever is added to a polynomial in normal form, the sum has one. -/
theorem Normal.add (h : p.Normal) (q : Polynomial α) : (p.add q).Normal := h.addTerms q.toList

@[simp] theorem normal_ofTerms (terms : List (Monomial × α)) : (ofTerms terms).Normal :=
  normal_zero.addTerms terms

@[simp] theorem normal_multiply (p q : Polynomial α) : (p.multiply q).Normal := normal_ofTerms _

@[simp] theorem normal_constant (c : α) : (constant c).Normal := by
  refine ⟨ordered_constant c, ?_⟩
  obtain ⟨-, empty⟩ | ⟨nonzero, single⟩ := constant_cases c
  · exact empty ▸ normal_zero.nonzero
  · rw [single]
    rintro t (_ | ⟨_, none⟩)
    · exact nonzero
    · cases none

theorem Normal.scale (h : p.Normal) (k : α) : (p.scale k).Normal := by
  refine ⟨h.ordered.scale k, ?_⟩
  obtain ⟨-, empty⟩ | ⟨-, scaled⟩ := p.scale_cases k
  · exact empty ▸ normal_zero.nonzero
  · rw [scaled]
    intro t member
    have kept := (List.mem_filter.mp member).2
    rwa [Bool.not_eq_true'] at kept

theorem Normal.negate (h : p.Normal) : p.negate.Normal := h.scale (-1)

theorem Normal.subtract (h : p.Normal) (q : Polynomial α) : (p.subtract q).Normal :=
  h.add q.negate

theorem Normal.divide (h : p.Normal) {q r : Polynomial α} (quotient : p.divide q = .ok r) :
    r.Normal := by
  obtain ⟨k, -, -, rfl⟩ := divide_eq_ok_iff.mp quotient
  exact h.scale (1 / k)

@[simp] theorem normal_sum (ps : List (Polynomial α)) : (sum ps).Normal := by
  have fold : ∀ total : Polynomial α, total.Normal → (ps.foldl Polynomial.add total).Normal := by
    induction ps with
    | nil => exact fun total h => h
    | cons p ps ih => exact fun total h => ih _ (h.add p)
  exact fold zero normal_zero

omit [Scalar α] in
theorem mem_toList_of_withoutConstant {t : Monomial × α} (h : t ∈ p.withoutConstant.toList) :
    t ∈ p.toList :=
  List.filter_sublist.subset h

theorem Normal.withoutConstant (h : p.Normal) : p.withoutConstant.Normal where
  ordered := h.ordered.withoutConstant
  nonzero t member := h.nonzero t (mem_toList_of_withoutConstant member)

/-- A variable is in normal form where one differs from zero. -/
theorem IsVariable.normal {x : String} (h : p.IsVariable x) (one : ((1 : α) == 0) = false)
    (unit : ∀ c : α, (c == 1) = true → (c == 0) = false) : p.Normal where
  ordered := by
    rw [Ordered, SortedTable.Ordered, h.keys]
    exact List.pairwise_singleton _ _
  nonzero := by
    obtain ⟨c, single, coefficient⟩ := h
    rw [single]
    rintro t (_ | ⟨_, none⟩)
    · obtain rfl | equal := coefficient
      · exact one
      · exact unit c equal
    · cases none

/-- A multiple has the same monomials, where the factor makes no coefficient vanish. -/
theorem Normal.keys_scale (h : p.Normal) {k : α} (nonzero : (k == 0) = false)
    (kept : ∀ c : α, (c == 0) = false → (c * k == 0) = false) :
    (p.scale k).terms.keys = p.terms.keys := by
  have all : ∀ t ∈ p.toList.map fun t => (t.1, t.2 * k), !(t.2 == 0) := by
    intro t member
    obtain ⟨t', stored, rfl⟩ := List.mem_map.mp member
    rw [kept t'.2 (h.nonzero t' stored)]
    rfl
  rw [Polynomial.scale, if_neg (Bool.eq_false_iff.mp nonzero), List.filter_eq_self.mpr all,
    SortedTable.keys, List.map_map]
  rfl

/-- A negation changes the sign of every coefficient and nothing else. -/
theorem Normal.negate_eq {p : Polynomial Rat} (h : p.Normal) :
    p.negate = ⟨⟨p.toList.map fun t => (t.1, -t.2)⟩⟩ := by
  have kept : ∀ t ∈ p.toList.map fun t => (t.1, t.2 * (-1 : Rat)), !(t.2 == 0) := by
    intro t member
    obtain ⟨t', stored, rfl⟩ := List.mem_map.mp member
    have nonzero : t'.2 ≠ 0 := by simpa using h.nonzero t' stored
    simpa using nonzero
  rw [Polynomial.negate, Polynomial.scale, if_neg (by decide), List.filter_eq_self.mpr kept]
  simp only [mul_neg_one]

/-- The negation of a polynomial in normal form has the same monomials. -/
theorem Normal.keys_negate {p : Polynomial Rat} (h : p.Normal) :
    p.negate.terms.keys = p.terms.keys := by
  rw [h.negate_eq, SortedTable.keys, List.map_map]
  rfl

/-- The constant term is other than zero if there is one. -/
theorem Normal.constant_eq_some_iff (h : p.Normal) (zero : ((0 : α) == 0) = true) {c : α} :
    (if p.constantTerm == 0 then none else some p.constantTerm) = some c ↔
      (Monomial.one, c) ∈ p.toList := by
  refine Iff.trans ?_ h.ordered.find?_eq_some_iff
  unfold constantTerm coefficient
  cases found : p.terms.find? Monomial.one with
  | none => rw [Option.getD_none, if_pos zero]
  | some x =>
      have nonzero := h.nonzero _ (h.ordered.find?_eq_some_iff.mp found)
      rw [Option.getD_some, if_neg (Bool.eq_false_iff.mp nonzero)]

end Polynomial

/-- A constraint is the comparison of two polynomials, under any label. -/
def Constraint.IsComparison (c : Constraint α) : Prop :=
  ∃ (left right : Polynomial α) (comparison : Comparison), left.Ordered ∧
    c = { Constraint.compare left comparison right with label := c.label }

namespace Constraint.IsComparison

variable {c : Constraint α}

theorem ordered (h : c.IsComparison) : c.lhs.Ordered := by
  obtain ⟨left, right, comparison, ordered, same⟩ := h
  rw [same]
  exact (ordered.subtract right).withoutConstant

/-- The constant term of the difference is on the right side. -/
theorem one_notMem (h : c.IsComparison) : Monomial.one ∉ c.lhs.terms.keys := by
  obtain ⟨left, right, comparison, -, same⟩ := h
  rw [same]
  exact Polynomial.one_notMem_withoutConstant _

end Constraint.IsComparison

omit [Scalar α] in
/-- Every form in which a model leaves the library takes polynomials of at most the second
degree. -/
theorem Lp.limitDegree_eq_ok_iff {location : String} {degree : Nat} :
    limitDegree (α := α) location degree = .ok () ↔ degree ≤ 2 := by
  unfold limitDegree
  split
  next high => exact iff_of_false (fun h => nomatch h) (by omega)
  next low => exact iff_of_true rfl (Nat.le_of_not_lt low)

section Objective

open Model Build

variable {m : Model α}

theorem invariant_normal_objective : Invariant fun m : Model α => m.objective.Normal where
  empty _ _ := Polynomial.normal_zero
  addVar h _ _ := h
  countVar h := h
  addConstraint _ h := h
  memoize _ _ h := h
  rollback _ h := h
  storeFamily _ h := h
  objective p h := h.add p

theorem Model.Reachable.normal_objective [Naming α] (h : m.Reachable) : m.objective.Normal :=
  invariant_normal_objective.of_reachable h

end Objective

end MipModel
