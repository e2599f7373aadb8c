import Mathlib
import MipModel.Expr.Evaluation
import MipModel.Proofs.RingLaws
import MipModel.Proofs.Subexpressions

/-!
# Constant expressions

Bounds of ranges and computed indices are evaluated to numbers, everything else to polynomials. Over
exact scalars the two evaluations agree: where there is a number, the polynomial is the constant of
that number, and an expression that is made of numbers has the one if it has the other
(`constant_evaluations_agree`).

The operations on constant polynomials are those on numbers. A sum of constants that cancels is the
polynomial without terms, which is the constant zero, and a quotient is the multiple by a
reciprocal. Both follow from the values of the polynomials, since canonical polynomials are told by
them.
-/

namespace MipModel

open Build

namespace Polynomial

variable {p : Polynomial Rat}

/-- A canonical polynomial with the same value everywhere is a constant. -/
theorem Canonical.eq_constant (h : p.Canonical) {c : Rat} (value : ∀ w, p.value w = c) :
    p = constant c :=
  eq_of_value_eq h (canonical_constant c) fun w => by simp [value]

/-- A polynomial without variables is the constant of its value. -/
theorem Normal.eq_constant (h : p.Normal) {c : Rat} (number : p.constantValue? = some c) :
    p = constant c := by
  have constant := (constantValue?_eq_some_iff.mp number).1
  have sorted : ∀ m ∈ p.terms.keys, m.Sorted := by
    intro m member
    have empty := List.isEmpty_iff.mp (List.all_eq_true.mp constant m member)
    have one : m = Monomial.one := congrArg Monomial.mk empty
    exact one ▸ Monomial.sorted_one
  exact (canonical_iff.mpr ⟨h, sorted⟩).eq_constant fun w =>
    value_of_constantValue? h.ordered number

@[simp] theorem divide_zero (p : Polynomial Rat) :
    p.divide (constant 0) = .error .divisionByZero := rfl

section Operations

variable (a b : Rat)

@[simp] theorem constant_add : (constant a).add (constant b) = constant (a + b) :=
  ((canonical_constant a).add (canonical_constant b)).eq_constant fun w => by
    simp

@[simp] theorem constant_negate : (constant a).negate = constant (-a) :=
  (canonical_constant a).negate.eq_constant fun w => by simp

@[simp] theorem constant_subtract : (constant a).subtract (constant b) = constant (a - b) := by
  simp [subtract, sub_eq_add_neg]

@[simp] theorem constant_multiply : (constant a).multiply (constant b) = constant (a * b) :=
  (canonical_multiply _ _).eq_constant fun w => by
    simp

theorem constant_divide {b : Rat} (nonzero : b ≠ 0) :
    (constant a).divide (constant b) = .ok (constant (a / b)) := by
  have scaled : (constant a).scale (1 / b) = constant (a / b) :=
    ((canonical_constant a).scale _).eq_constant fun w => by
      simp [div_eq_mul_inv]
  rw [divide_constant _ nonzero, scaled]

end Operations
end Polynomial

namespace Expr

/-- The root is a number, a symbol, a parameter, a polynomial without variables, or arithmetic. -/
def IsNumeric {α : Type} : Expr α → Prop
  | .const _ | .symbol _ | .param .. | .add .. | .sub .. | .mul .. | .div .. | .neg _ => True
  | .poly p => p.isConstant = true
  | _ => False

variable {families : Families Rat} {scope : Scope Rat} {e : Expr Rat}

/-- A constant expression evaluates to the polynomial of its number. -/
theorem evaluate_of_constantIn (embeds : e.Every (Embeds Polynomial.Normal)) {c : Rat}
    (h : e.constantIn scope = .ok c) : e.evaluate families scope = .ok (.constant c) := by
  induction e using operandInduction generalizing c with
  | leaf e leaf =>
      cases e with
      | const _ =>
          cases h
          rfl
      | poly p =>
          rw [constantIn] at h
          split at h
          next number =>
            cases h
            exact congrArg Except.ok (Polynomial.Normal.eq_constant embeds number)
          next => cases h
      | var _ _ => cases h
      | param name indices =>
          obtain ⟨pattern, resolved, found⟩ := bind_eq_ok_iff.mp h
          exact bind_eq_ok_iff.mpr ⟨pattern, resolved, bind_eq_ok_iff.mpr ⟨c, found, rfl⟩⟩
      | symbol name =>
          have h : scope.number name = .ok c := h
          rw [evaluate, h]
          rfl
      | _ => cases leaf
  | sum _ _ _ => cases h
  | add a b iha ihb | sub a b iha ihb | mul a b iha ihb =>
      rw [constantIn] at h
      obtain ⟨k, first, h⟩ := bind_eq_ok_iff.mp h
      obtain ⟨l, second, h⟩ := bind_eq_ok_iff.mp h
      cases h
      rw [evaluate, iha embeds.2.1 first, ihb embeds.2.2 second]
      first
      | exact congrArg Except.ok (Polynomial.constant_add k l)
      | exact congrArg Except.ok (Polynomial.constant_subtract k l)
      | exact congrArg Except.ok (Polynomial.constant_multiply k l)
  | div a b iha ihb =>
      rw [constantIn] at h
      obtain ⟨l, second, h⟩ := bind_eq_ok_iff.mp h
      split at h
      next => cases h
      next nonzero =>
        obtain ⟨k, first, h⟩ := bind_eq_ok_iff.mp h
        cases h
        rw [evaluate, iha embeds.2.1 first, ihb embeds.2.2 second]
        exact Polynomial.constant_divide k (by simpa using nonzero)
  | neg a ih =>
      rw [constantIn] at h
      obtain ⟨k, operand, h⟩ := bind_eq_ok_iff.mp h
      cases h
      rw [evaluate, ih embeds.2 operand]
      exact congrArg Except.ok (Polynomial.constant_negate k)
  | construct e construct _ =>
      cases (constantIn_construct construct scope).symm.trans h

/-- An expression that is made of numbers has one if it evaluates to a polynomial. -/
theorem exists_constantIn_of_evaluate (embeds : e.Every (Embeds Polynomial.Normal))
    (numeric : e.Every IsNumeric) {p : Polynomial Rat} (h : e.evaluate families scope = .ok p) :
    ∃ c, e.constantIn scope = .ok c := by
  induction e using operandInduction generalizing p with
  | leaf e leaf =>
      cases e with
      | const c => exact ⟨c, rfl⟩
      | poly q =>
          have number := Polynomial.constantValue?_eq_some_iff.mpr ⟨numeric, rfl⟩
          exact ⟨q.constantTerm, by rw [constantIn, number]⟩
      | var _ _ => exact numeric.elim
      | param name indices =>
          obtain ⟨pattern, resolved, h⟩ := bind_eq_ok_iff.mp h
          obtain ⟨c, found, -⟩ := bind_eq_ok_iff.mp h
          exact ⟨c, bind_eq_ok_iff.mpr ⟨pattern, resolved, found⟩⟩
      | symbol name =>
          obtain ⟨c, found, -⟩ := bind_eq_ok_iff.mp h
          exact ⟨c, found⟩
      | _ => cases leaf
  | sum _ _ _ => exact numeric.1.elim
  | add a b iha ihb | sub a b iha ihb | mul a b iha ihb =>
      obtain ⟨q, first, h⟩ := bind_eq_ok_iff.mp h
      obtain ⟨r, second, h⟩ := bind_eq_ok_iff.mp h
      obtain ⟨k, left⟩ := iha embeds.2.1 numeric.2.1 first
      obtain ⟨l, right⟩ := ihb embeds.2.2 numeric.2.2 second
      rw [constantIn, left, right]
      exact ⟨_, rfl⟩
  | div a b iha ihb =>
      obtain ⟨q, first, h⟩ := bind_eq_ok_iff.mp h
      obtain ⟨r, second, h⟩ := bind_eq_ok_iff.mp h
      obtain ⟨k, left⟩ := iha embeds.2.1 numeric.2.1 first
      obtain ⟨l, right⟩ := ihb embeds.2.2 numeric.2.2 second
      -- The divisor is the constant of its number, so it is not zero.
      obtain rfl : r = .constant l :=
        Except.ok.inj (second.symm.trans (evaluate_of_constantIn embeds.2.2 right))
      have nonzero : l ≠ 0 := by
        rintro rfl
        cases (Polynomial.divide_zero q).symm.trans h
      rw [constantIn, left, right]
      exact ⟨k / l, if_neg (by simpa using nonzero)⟩
  | neg a ih =>
      obtain ⟨q, operand, -⟩ := bind_eq_ok_iff.mp h
      obtain ⟨k, here⟩ := ih embeds.2 numeric.2 operand
      rw [constantIn, here]
      exact ⟨_, rfl⟩
  | construct e construct _ =>
      cases (evaluate_construct construct families scope).symm.trans h

end Expr

/-- Where an expression is a number, it evaluates to the constant polynomial of that number, which
has no terms if the number is zero. An expression that is made of numbers is a number if it can be
evaluated, and otherwise fails both ways. The polynomials in the expression have no terms that are
zero, as is the case for all that are built. -/
theorem constant_evaluations_agree {e : Expr Rat} (embeds : e.Every (Expr.Embeds Polynomial.Normal))
    (families : Families Rat) (scope : Scope Rat) :
    (∀ c, e.constantIn scope = .ok c → e.evaluate families scope = .ok (.constant c) ∧
      (c = 0 → e.evaluate families scope = .ok .zero)) ∧
    (e.Every Expr.IsNumeric →
      ((∃ c, e.constantIn scope = .ok c) ↔ ∃ p, e.evaluate families scope = .ok p)) := by
  refine ⟨fun c number => ?_, fun numeric => ⟨?_, ?_⟩⟩
  · have evaluated : e.evaluate families scope = .ok (.constant c) :=
      Expr.evaluate_of_constantIn embeds number
    refine ⟨evaluated, ?_⟩
    rintro rfl
    exact evaluated
  · rintro ⟨c, number⟩
    exact ⟨_, Expr.evaluate_of_constantIn embeds number⟩
  · rintro ⟨p, evaluated⟩
    exact Expr.exists_constantIn_of_evaluate embeds numeric evaluated

/-- A number from the data, divided by a parameter at a computed index, times constants that
cancel. -/
theorem cancelled_constants_evaluated :
    let data : Data Rat := (Data.empty.withScalar "n" 4).withTable "a" [([1], 3)]
    let first : IndexExpr Rat := .computed (.sub (.symbol "n") (.const 3))
    let quotient : Expr Rat := .div (.symbol "n") (.param "a" [first])
    let e : Expr Rat := .mul quotient (.sub (.poly (.constant (1 / 2))) (.const (1 / 2)))
    quotient.constantIn (.ofData data) = .ok (4 / 3) ∧ e.evaluate ∅ (.ofData data) = .ok .zero ∧
      ∃ c, e.constantIn (.ofData data) = .ok c := by
  intro data first quotient e
  have normal : (Polynomial.constant (1 / 2 : Rat)).Normal := Polynomial.normal_constant _
  have plain : (Polynomial.constant (1 / 2 : Rat)).isConstant = true := by decide +kernel
  have embeds : e.Every (Expr.Embeds Polynomial.Normal) :=
    ⟨trivial, ⟨trivial, trivial, trivial⟩, trivial, normal, trivial⟩
  have numeric : e.Every Expr.IsNumeric :=
    ⟨trivial, ⟨trivial, trivial, trivial⟩, trivial, plain, trivial⟩
  have zero : e.constantIn (.ofData data) = .ok 0 := by decide +kernel
  obtain ⟨agree, both⟩ := constant_evaluations_agree embeds ∅ (.ofData data)
  have evaluated : e.evaluate ∅ (.ofData data) = .ok .zero := (agree 0 zero).2 rfl
  exact ⟨by decide +kernel, evaluated, (both numeric).mpr ⟨_, evaluated⟩⟩

end MipModel
