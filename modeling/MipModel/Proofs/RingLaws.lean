import MipModel.Proofs.CanonicalForms
import MipModel.Proofs.Valuation

/-!
# Ring laws

Over exact scalars a canonical polynomial is determined by its values (`eq_of_value_eq`): it is read
as a formal polynomial, and formal polynomials over an infinite domain are told by their values. The
operations are those of the values, so every law of the rationals is a law of canonical polynomials,
and holds term by term (`ring_laws`). In particular comparing the stored terms decides whether two
canonical polynomials are equal as functions (`beq_iff_evaluate_eq`).
-/

namespace MipModel

/-- Tables are told by their keys and by the values that stand side by side. -/
theorem SortedTable.eq_of_keys_of_values {κ β : Type} {s t : SortedTable κ β}
    (keys : s.keys = t.keys) (values : ∀ pair ∈ s.values.zip t.values, pair.1 = pair.2) :
    s = t := by
  obtain ⟨entries⟩ := s
  obtain ⟨entries'⟩ := t
  refine congrArg mk ?_
  induction entries generalizing entries' with
  | nil => exact (List.map_eq_nil_iff.mp keys.symm).symm
  | cons e rest ih =>
      cases entries' with
      | nil => cases keys
      | cons e' rest' =>
          obtain ⟨key, keys⟩ := List.cons_eq_cons.mp keys
          obtain ⟨value, values⟩ := List.forall_mem_cons.mp values
          rw [Prod.ext key value, ih rest' keys values]

namespace Monomial

noncomputable def exponents (m : Monomial) : String →₀ ℕ :=
  Multiset.toFinsupp (m.names : Multiset String)

/-- Sorted monomials are told by their exponents. -/
theorem exponents_injective {a b : Monomial} (ha : a.Sorted) (hb : b.Sorted)
    (same : a.exponents = b.exponents) : a = b := by
  have perm : a.names.Perm b.names :=
    Multiset.coe_eq_coe.mp (Multiset.toFinsupp.injective same)
  have names : a.names = b.names := perm.eq_of_pairwise' ha hb
  cases a
  cases b
  exact congrArg mk names

@[simp] theorem prod_exponents (w : String → Rat) (m : Monomial) :
    (m.exponents.prod fun x n => w x ^ n) = m.value w := by
  have counted := Finset.prod_multiset_map_count (m.names : Multiset String) w
  rw [Multiset.map_coe, Multiset.prod_coe] at counted
  unfold Finsupp.prod exponents
  rw [Multiset.toFinsupp_support]
  exact counted.symm

end Monomial

namespace Polynomial

variable {p q r : Polynomial Rat}

noncomputable def toMvPolynomial (p : Polynomial Rat) : MvPolynomial String Rat :=
  (p.toList.map fun t => MvPolynomial.monomial t.1.exponents t.2).sum

@[simp] theorem eval_toMvPolynomial (w : String → Rat) (p : Polynomial Rat) :
    MvPolynomial.eval w p.toMvPolynomial = p.value w := by
  rw [toMvPolynomial, map_list_sum, List.map_map]
  refine congrArg List.sum (List.map_congr_left fun t _ => ?_)
  rw [Function.comp, MvPolynomial.eval_monomial, Monomial.prod_exponents]

/-- The stored coefficients are the sum of the terms of a monomial, of which there is at most one. -/
theorem total_eq_coefficient (h : p.Ordered) (m : Monomial) :
    (p.terms.total fun t => if t.1 = m then t.2 else 0) = p.coefficient m := by
  have erased := SortedTable.total_erase (fun t => if t.1 = m then t.2 else 0) h m
  have others : (p.terms.erase m).total (fun t => if t.1 = m then t.2 else 0) = 0 := by
    apply List.sum_eq_zero
    intro x hx
    obtain ⟨t, kept, rfl⟩ := List.mem_map.mp hx
    have different : t.1 ≠ m := by simpa using (List.mem_filter.mp kept).2
    exact if_neg different
  rw [others, zero_add] at erased
  rw [← erased, coefficient]
  cases p.terms.find? m with
  | none => rfl
  | some c => simp

/-- The coefficients of the formal polynomial are those of the canonical one. -/
theorem coeff_toMvPolynomial (h : p.Canonical) {m : Monomial} (sorted : m.Sorted) :
    MvPolynomial.coeff m.exponents p.toMvPolynomial = p.coefficient m := by
  obtain ⟨normal, names⟩ := canonical_iff.mp h
  rw [← total_eq_coefficient normal.ordered m, toMvPolynomial,
    ← MvPolynomial.coeffAddMonoidHom_apply, map_list_sum, List.map_map]
  refine congrArg List.sum (List.map_congr_left fun t stored => ?_)
  rw [Function.comp, MvPolynomial.coeffAddMonoidHom_apply, MvPolynomial.coeff_monomial]
  have injective : t.1.exponents = m.exponents ↔ t.1 = m :=
    ⟨Monomial.exponents_injective (names t.1 (List.mem_map_of_mem stored)) sorted,
      congrArg Monomial.exponents⟩
  simp only [injective]

/-- What a canonical polynomial stores is told by its coefficients at sorted monomials. -/
theorem Canonical.mem_toList_iff (h : p.Canonical) {m : Monomial} {c : Rat} :
    (m, c) ∈ p.toList ↔ m.Sorted ∧ c ≠ 0 ∧ p.coefficient m = c := by
  obtain ⟨normal, names⟩ := canonical_iff.mp h
  have found : p.terms.find? m = some c ↔ (m, c) ∈ p.toList := normal.ordered.find?_eq_some_iff
  constructor
  · intro stored
    refine ⟨names m (List.mem_map_of_mem stored), by simpa using h.nonzero _ stored, ?_⟩
    rw [coefficient, found.mpr stored, Option.getD_some]
  · rintro ⟨-, nonzero, coefficient⟩
    rw [← found]
    unfold Polynomial.coefficient at coefficient
    cases looked : p.terms.find? m with
    | none =>
        rw [looked] at coefficient
        exact absurd coefficient.symm nonzero
    | some c' =>
        rw [looked] at coefficient
        exact congrArg some coefficient

/-- Canonical polynomials with the same values are the same. -/
theorem eq_of_value_eq (hp : p.Canonical) (hq : q.Canonical)
    (same : ∀ w, p.value w = q.value w) : p = q := by
  have formal : p.toMvPolynomial = q.toMvPolynomial := by
    apply MvPolynomial.funext
    intro w
    rw [eval_toMvPolynomial, eval_toMvPolynomial, same]
  have coefficients {m : Monomial} (sorted : m.Sorted) : p.coefficient m = q.coefficient m := by
    rw [← coeff_toMvPolynomial hp sorted, formal, coeff_toMvPolynomial hq sorted]
  have tables : p.terms = q.terms := by
    refine SortedTable.Ordered.ext (canonical_iff.mp hp).1.ordered
      (canonical_iff.mp hq).1.ordered fun ⟨m, c⟩ => ?_
    rw [← toList, ← toList, hp.mem_toList_iff, hq.mem_toList_iff]
    exact and_congr_right fun sorted => by rw [coefficients sorted]
  cases p
  cases q
  exact congrArg mk tables

section Equality

/-- Polynomials compare equal when their terms are the same. -/
theorem beq_iff_terms_eq : (p == q) = true ↔ p.terms = q.terms := by
  have compared : (p == q) = true ↔ p.terms.keys = q.terms.keys ∧
      ∀ pair ∈ p.terms.values.zip q.terms.values, pair.1 = pair.2 := by
    show (p.terms.keys == q.terms.keys && _) = true ↔ _
    simp only [Bool.and_eq_true, List.all_eq_true, beq_iff_eq]
  rw [compared]
  constructor
  · rintro ⟨keys, values⟩
    exact SortedTable.eq_of_keys_of_values keys values
  · intro same
    rw [same]
    refine ⟨rfl, fun pair member => ?_⟩
    rw [List.zip_eq_zipWith, List.zipWith_self] at member
    obtain ⟨c, -, rfl⟩ := List.mem_map.mp member
    rfl

/-- Under an assignment of all variables, evaluation gives the value. -/
@[simp] theorem evaluate_some (p : Polynomial Rat) (w : String → Rat) :
    p.evaluate (fun x => some (w x)) = .ok (p.value w) :=
  evaluate_eq_ok_iff.mpr ⟨fun _ _ _ _ => rfl, rfl⟩

/-- Canonical polynomials compare equal, term by term, exactly when they evaluate to the same number
under every assignment of numbers to variables. -/
theorem beq_iff_evaluate_eq (hp : p.Canonical) (hq : q.Canonical) :
    ((p == q) = true ↔ p.terms = q.terms) ∧
      ((p == q) = true ↔ ∀ w : String → Rat, ∃ y,
        p.evaluate (fun x => some (w x)) = .ok y ∧ q.evaluate (fun x => some (w x)) = .ok y) := by
  refine ⟨beq_iff_terms_eq, beq_iff_terms_eq.trans ⟨fun same w => ?_, fun same => ?_⟩⟩
  · have equal : p = q := by
      cases p
      cases q
      exact congrArg mk same
    exact ⟨p.value w, p.evaluate_some w, equal ▸ p.evaluate_some w⟩
  · refine congrArg terms (eq_of_value_eq hp hq fun w => ?_)
    obtain ⟨y, left, right⟩ := same w
    rw [evaluate_some] at left right
    exact Except.ok.inj (left.trans right.symm)

/-- The square of a sum is its expansion under every assignment, and the square of a variable is not
that variable under every assignment. -/
theorem squares_compared :
    let x : Polynomial Rat := .var "x"
    let y : Polynomial Rat := .var "y"
    let square := (x.add y).multiply (x.add y)
    let expansion := ((y.multiply y).add ((y.multiply x).scale 2)).add (x.multiply x)
    (∀ w : String → Rat, ∃ z, square.evaluate (fun name => some (w name)) = .ok z ∧
      expansion.evaluate (fun name => some (w name)) = .ok z) ∧
    ¬∀ w : String → Rat, ∃ z, (x.multiply x).evaluate (fun name => some (w name)) = .ok z ∧
      x.evaluate (fun name => some (w name)) = .ok z := by
  intro x y square expansion
  have single : x.Canonical := (isVariable_var "x").canonical (by decide) (by simp)
  have expanded : expansion.Canonical :=
    ((canonical_multiply y y).add ((canonical_multiply y x).scale 2)).add (canonical_multiply x x)
  have multiplied : square.Canonical := canonical_multiply _ _
  have equal := beq_iff_evaluate_eq multiplied expanded
  have different := beq_iff_evaluate_eq (canonical_multiply x x) single
  exact ⟨equal.2.mp (by decide +kernel), mt different.2.mpr (by decide +kernel)⟩

end Equality

section Laws

theorem Canonical.ordered (h : p.Canonical) : p.Ordered := (canonical_iff.mp h).1.ordered

theorem Canonical.add_comm (hp : p.Canonical) (hq : q.Canonical) : p.add q = q.add p := by
  apply eq_of_value_eq (hp.add hq) (hq.add hp)
  intro w
  simp [hp.ordered, hq.ordered, Rat.add_comm]

theorem Canonical.add_assoc (hp : p.Canonical) (hq : q.Canonical) (hr : r.Canonical) :
    (p.add q).add r = p.add (q.add r) := by
  apply eq_of_value_eq ((hp.add hq).add hr) (hp.add (hq.add hr))
  intro w
  simp [hp.ordered, hq.ordered, Rat.add_assoc]

@[simp] theorem add_zero (p : Polynomial Rat) : p.add zero = p := rfl

@[simp] theorem Canonical.zero_add (hp : p.Canonical) : zero.add p = p :=
  canonical_zero.add_comm hp

@[simp] theorem Canonical.subtract_self (hp : p.Canonical) : p.subtract p = zero := by
  apply eq_of_value_eq (hp.subtract hp) canonical_zero
  intro w
  simp [hp.ordered]

theorem multiply_comm (p q : Polynomial Rat) : p.multiply q = q.multiply p := by
  apply eq_of_value_eq (canonical_multiply p q) (canonical_multiply q p)
  intro w
  simp [mul_comm]

theorem multiply_assoc (p q r : Polynomial Rat) :
    (p.multiply q).multiply r = p.multiply (q.multiply r) := by
  apply eq_of_value_eq (canonical_multiply _ r) (canonical_multiply p _)
  intro w
  simp [mul_assoc]

@[simp] theorem Canonical.multiply_one (hp : p.Canonical) : p.multiply (constant 1) = p := by
  apply eq_of_value_eq (canonical_multiply p _) hp
  intro w
  simp

@[simp] theorem Canonical.one_multiply (hp : p.Canonical) : (constant 1).multiply p = p :=
  (multiply_comm _ p).trans hp.multiply_one

theorem Canonical.multiply_add (p : Polynomial Rat) (hq : q.Canonical) (r : Polynomial Rat) :
    p.multiply (q.add r) = (p.multiply q).add (p.multiply r) := by
  apply eq_of_value_eq (canonical_multiply p _)
    ((canonical_multiply p q).add (canonical_multiply p r))
  intro w
  simp [hq.ordered, mul_add]

theorem Canonical.add_multiply (hq : q.Canonical) (r p : Polynomial Rat) :
    (q.add r).multiply p = (q.multiply p).add (r.multiply p) := by
  rw [multiply_comm, multiply_comm q, multiply_comm r]
  exact Canonical.multiply_add p hq r

/-- A multiple is the product with a constant. -/
theorem Canonical.scale_eq_multiply (hp : p.Canonical) (k : Rat) :
    p.scale k = p.multiply (constant k) := by
  apply eq_of_value_eq (hp.scale k) (canonical_multiply p _)
  intro w
  simp

/-- A quotient by a number other than zero exists. -/
theorem divide_constant (p : Polynomial Rat) {k : Rat} (nonzero : k ≠ 0) :
    p.divide (constant k) = .ok (p.scale (1 / k)) := by
  have different : (k == 0) = false := beq_eq_false_iff_ne.mpr nonzero
  have value : (constant k).constantValue? = some k := by
    rw [constant, different]
    rfl
  exact divide_eq_ok_iff.mpr ⟨k, value, different, rfl⟩

/-- A quotient can be multiplied back. -/
theorem Canonical.scale_scale_inverse (hp : p.Canonical) {k : Rat} (nonzero : k ≠ 0) :
    (p.scale (1 / k)).scale k = p := by
  apply eq_of_value_eq ((hp.scale _).scale k) hp
  intro w
  simp [nonzero]

/-- Canonical polynomials over exact scalars form a commutative ring, in which a multiple is the
product with a constant and quotients by constants other than zero exist. The two sides of each law
are the same polynomial, term by term. -/
theorem ring_laws (hp : p.Canonical) (hq : q.Canonical) (hr : r.Canonical) :
    (p.add q = q.add p ∧ (p.add q).add r = p.add (q.add r) ∧
      p.add zero = p ∧ zero.add p = p ∧ p.subtract p = zero) ∧
    (p.multiply q = q.multiply p ∧ (p.multiply q).multiply r = p.multiply (q.multiply r) ∧
      p.multiply (constant 1) = p ∧ (constant 1).multiply p = p) ∧
    (p.multiply (q.add r) = (p.multiply q).add (p.multiply r) ∧
      (q.add r).multiply p = (q.multiply p).add (r.multiply p)) ∧
    (∀ k, p.scale k = p.multiply (constant k)) ∧
    ∀ k, k ≠ 0 → ∃ s, p.divide (constant k) = .ok s ∧ s.scale k = p := by
  refine ⟨⟨?_, ?_, ?_, ?_, ?_⟩, ⟨?_, ?_, ?_, ?_⟩, ⟨?_, ?_⟩, ?_, ?_⟩
  · exact hp.add_comm hq
  · exact hp.add_assoc hq hr
  · exact add_zero p
  · exact hp.zero_add
  · exact hp.subtract_self
  · exact multiply_comm p q
  · exact multiply_assoc p q r
  · exact hp.multiply_one
  · exact hp.one_multiply
  · exact Canonical.multiply_add p hq r
  · exact hq.add_multiply r p
  · exact hp.scale_eq_multiply
  · exact fun k nonzero => ⟨_, divide_constant p nonzero, hp.scale_scale_inverse nonzero⟩

/-- A product in which the mixed terms cancel, and a sum in which everything does. -/
theorem ring_laws_of_binomials :
    let x : Polynomial Rat := .var "x"
    let y : Polynomial Rat := .var "y"
    let p := (x.scale (1 / 2)).add y
    let q := (x.scale (1 / 2)).subtract y
    p.Canonical ∧ q.Canonical ∧ p.multiply q = q.multiply p ∧
      p.multiply (q.add p.negate) = (p.multiply q).add (p.multiply p.negate) ∧
      ∃ s, p.divide (constant 3) = .ok s ∧ s.scale 3 = p := by
  intro x y p q
  have single (name : String) : (var name : Polynomial Rat).Canonical :=
    (isVariable_var name).canonical (by decide) (by simp)
  have hp : p.Canonical := ((single "x").scale _).add (single "y")
  have hq : q.Canonical := ((single "x").scale _).subtract (single "y")
  obtain ⟨-, ⟨commutes, -⟩, ⟨distributes, -⟩, -, divides⟩ := ring_laws hp hq hp.negate
  exact ⟨hp, hq, commutes, distributes, divides 3 (by decide)⟩

end Laws

end Polynomial

end MipModel
