import MipModel.Proofs.Terms
import MipModel.Polynomial.Text
import MipModel.Scalar.Rational

/-!
# Values of polynomials

Over exact scalars a polynomial has a value under every assignment of its variables, and the
operations on polynomials are the operations on values, provided that the terms are in order.

The value is first taken under a total assignment (`value`), where the arithmetic is plain. Partial
assignments come in at the end: evaluation succeeds exactly when all variables are assigned, and
then gives the value (`evaluate_eq_ok_iff`).
-/

namespace MipModel

namespace Monomial

def value (w : String → Rat) (m : Monomial) : Rat := (m.names.map w).prod

@[simp] theorem value_one (w : String → Rat) : one.value w = 1 := rfl

@[simp] theorem value_var (w : String → Rat) (name : String) : (var name).value w = w name := by
  simp [value, var]

@[simp] theorem value_product (w : String → Rat) (a b : Monomial) :
    (a.product b).value w = a.value w * b.value w := by
  have same := ((names_product_perm a b).map w).prod_eq
  simpa only [value, List.map_append, List.prod_append] using same

end Monomial

namespace Polynomial

section Value

variable {p q : Polynomial Rat} {w : String → Rat}

def value (w : String → Rat) (p : Polynomial Rat) : Rat :=
  p.terms.total fun t => t.2 * t.1.value w

/-- The value depends on the variables that occur. -/
theorem value_congr {w' : String → Rat} {S : String → Prop} (h : p.Over S)
    (same : ∀ x, S x → w' x = w x) : p.value w' = p.value w := by
  have terms : ∀ t ∈ p.toList, t.2 * t.1.value w' = t.2 * t.1.value w := by
    intro t member
    have factors : t.1.names.map w' = t.1.names.map w :=
      List.map_congr_left fun x hx => same x (h.names_of_mem member x hx)
    simp only [Monomial.value, factors]
  exact congrArg List.sum (List.map_congr_left terms)

@[simp] theorem value_zero : (zero : Polynomial Rat).value w = 0 := rfl

@[simp] theorem value_constant (c : Rat) : (constant c).value w = c := by
  obtain ⟨zero, empty⟩ | ⟨-, single⟩ := constant_cases c
  · rw [empty, value_zero, beq_iff_eq.mp zero]
  · simp [single, value, SortedTable.total]

@[simp] theorem value_var (name : String) : (var name : Polynomial Rat).value w = w name := by
  simp [value, SortedTable.total, var]

@[simp] theorem value_addTerm (h : p.Ordered) (m : Monomial) (c : Rat) :
    (p.addTerm m c).value w = p.value w + c * m.value w := by
  have coefficient : ((p.terms.find? m).map fun v => v * m.value w).getD 0 =
      p.coefficient m * m.value w := by
    unfold Polynomial.coefficient
    cases p.terms.find? m with
    | none => simp
    | some v => rfl
  have erased := SortedTable.total_erase (fun t => t.2 * t.1.value w) h m
  rw [coefficient] at erased
  obtain ⟨zero, same⟩ | ⟨cancelled, removed⟩ | ⟨-, put⟩ := p.addTerm_cases m c
  · rw [same, beq_iff_eq.mp zero, zero_mul, add_zero]
  · have opposite : c = -p.coefficient m := by linarith [beq_iff_eq.mp cancelled]
    simp only [removed, value]
    rw [← erased, opposite]
    ring
  · have inserted := SortedTable.total_insert (fun t => t.2 * t.1.value w) h m
      (p.coefficient m + c)
    simp only [put, value]
    rw [inserted, ← erased]
    ring

theorem value_addTerms (h : p.Ordered) (terms : List (Monomial × Rat)) :
    (p.addTerms terms).value w =
      p.value w + (terms.map fun t => t.2 * t.1.value w).sum := by
  induction terms generalizing p with
  | nil => simp [addTerms]
  | cons t terms ih =>
      have step := ih (h.addTerm t.1 t.2)
      rw [value_addTerm h] at step
      simp only [addTerms, List.foldl_cons, List.map_cons, List.sum_cons] at step ⊢
      rw [step]
      ring

theorem value_ofTerms (terms : List (Monomial × Rat)) :
    (ofTerms terms).value w = (terms.map fun t => t.2 * t.1.value w).sum := by
  simp [ofTerms, value_addTerms]

@[simp] theorem value_add (h : p.Ordered) (q : Polynomial Rat) :
    (p.add q).value w = p.value w + q.value w :=
  value_addTerms h q.toList

@[simp] theorem value_scale (p : Polynomial Rat) (k : Rat) :
    (p.scale k).value w = p.value w * k := by
  obtain ⟨zero, empty⟩ | ⟨-, scaled⟩ := p.scale_cases k
  · rw [empty, beq_iff_eq.mp zero, mul_zero, value_zero]
  · obtain ⟨⟨terms⟩⟩ := p
    simp only [scaled, value, SortedTable.total, toList]
    clear scaled
    induction terms with
    | nil => simp
    | cons t terms ih =>
        rw [List.map_cons, List.filter_cons]
        split
        next =>
          simp only [List.map_cons, List.sum_cons, ih]
          ring
        next vanishes =>
          have zero : t.2 * k = 0 := by simpa [or_iff_not_imp_left] using vanishes
          rw [ih, List.map_cons, List.sum_cons, add_mul, mul_right_comm, zero, zero_mul, zero_add]

@[simp] theorem value_negate (p : Polynomial Rat) : p.negate.value w = -p.value w := by
  simp [negate]

@[simp] theorem value_subtract (h : p.Ordered) (q : Polynomial Rat) :
    (p.subtract q).value w = p.value w - q.value w := by
  simp [subtract, h, sub_eq_add_neg]

@[simp] theorem value_multiply (p q : Polynomial Rat) :
    (p.multiply q).value w = p.value w * q.value w := by
  obtain ⟨⟨terms⟩⟩ := p
  rw [multiply, value_ofTerms]
  show ((terms.flatMap _).map _).sum = (terms.map _).sum * (q.toList.map _).sum
  induction terms with
  | nil => simp
  | cons s terms ih =>
      have row : ((q.toList.map fun t => (s.1.product t.1, s.2 * t.2)).map
          fun t => t.2 * t.1.value w).sum =
          s.2 * s.1.value w * (q.toList.map fun t => t.2 * t.1.value w).sum := by
        rw [List.map_map, ← List.sum_map_mul_left]
        congr 1
        apply List.map_congr_left
        intro t _
        simp only [Function.comp, Monomial.value_product]
        ring
      rw [List.flatMap_cons, List.map_append, List.sum_append, row, ih, List.map_cons,
        List.sum_cons, add_mul]

@[simp] theorem value_withoutConstant (h : p.Ordered) :
    p.withoutConstant.value w = p.value w - p.constantTerm := by
  have erased := SortedTable.total_erase (fun t => t.2 * t.1.value w) h Monomial.one
  have constant : ((p.terms.find? Monomial.one).map fun v => v * Monomial.one.value w).getD 0 =
      p.constantTerm := by
    unfold constantTerm coefficient
    cases p.terms.find? Monomial.one with
    | none => rfl
    | some v => simp
  rw [constant] at erased
  simp only [value, withoutConstant]
  linarith

/-- A polynomial without variables is worth its constant term. -/
theorem value_of_constantValue? (h : p.Ordered) {c : Rat} (constant : p.constantValue? = some c) :
    p.value w = c := by
  obtain ⟨isConstant, rfl⟩ := constantValue?_eq_some_iff.mp constant
  have none : p.withoutConstant.terms.entries = [] := by
    apply List.filter_eq_nil_iff.mpr
    intro e he
    have only := List.all_eq_true.mp isConstant e.1 (List.mem_map_of_mem he)
    have same : e.1 = Monomial.one := congrArg Monomial.mk (List.isEmpty_iff.mp only)
    simp [same]
  have rest := value_withoutConstant (w := w) h
  rw [value, SortedTable.total, none, List.map_nil, List.sum_nil] at rest
  linarith

end Value

end Polynomial

/-- A partial assignment with zero in place of missing values. -/
def Assignment.total (v : Assignment Rat) (x : String) : Rat := (v x).getD 0

def Assignment.Assigns {α : Type} (v : Assignment α) (x : String) : Prop := (v x).isSome = true

/-- The second assignment agrees with the first one where that has values. -/
def Assignment.Continues {α : Type} (v v' : Assignment α) : Prop :=
  ∀ x a, v x = some a → v' x = some a

theorem Assignment.Continues.assigns {α : Type} {v v' : Assignment α} (h : v.Continues v')
    {x : String} (assigned : v.Assigns x) : v'.Assigns x := by
  obtain ⟨a, ha⟩ := Option.isSome_iff_exists.mp assigned
  simp [Assigns, h x a ha]

theorem Assignment.Continues.total_eq {v v' : Assignment Rat} (h : v.Continues v') {x : String}
    (assigned : v.Assigns x) : v'.total x = v.total x := by
  obtain ⟨a, ha⟩ := Option.isSome_iff_exists.mp assigned
  simp [total, h x a ha, ha]

namespace Polynomial

section Evaluation

variable {p q : Polynomial Rat} {v v' : Assignment Rat} {y z : Rat}

theorem evaluateTerm_eq_ok_iff {m : Monomial} {c : Rat} :
    evaluateTerm v m c = .ok y ↔ (∀ x ∈ m.names, v.Assigns x) ∧ y = c * m.value v.total := by
  obtain ⟨names⟩ := m
  unfold evaluateTerm
  induction names generalizing c with
  | nil =>
      show Except.ok c = .ok y ↔ _
      simp [Monomial.value, eq_comm]
  | cons x names ih =>
      rw [List.foldlM_cons]
      cases assigned : v x with
      | none =>
          rw [lookup, assigned]
          refine iff_of_false (fun h => (nomatch h)) fun h => ?_
          simpa [Assignment.Assigns, assigned] using h.1 x List.mem_cons_self
      | some a =>
          rw [lookup, assigned]
          apply (ih (c := c * a)).trans
          have here : v.Assigns x := by simp [Assignment.Assigns, assigned]
          have value : v.total x = a := by simp [Assignment.total, assigned]
          simp [Monomial.value, here, value, mul_assoc]

/-- Evaluation succeeds when all variables are assigned, and gives the value. -/
theorem evaluate_eq_ok_iff :
    p.evaluate v = .ok y ↔ p.Over v.Assigns ∧ y = p.value v.total := by
  obtain ⟨⟨terms⟩⟩ := p
  have fold : ∀ init, terms.foldlM (fun total t => return total + (← evaluateTerm v t.1 t.2)) init
      = Except.ok y ↔ (∀ t ∈ terms, ∀ x ∈ t.1.names, v.Assigns x) ∧
        y = init + (terms.map fun t => t.2 * t.1.value v.total).sum := by
    induction terms with
    | nil =>
        intro init
        show Except.ok init = .ok y ↔ _
        simp [eq_comm]
    | cons t terms ih =>
        intro init
        rw [List.foldlM_cons]
        cases term : evaluateTerm v t.1 t.2 with
        | error e =>
            refine iff_of_false (fun h => (nomatch h)) fun h => ?_
            have ok := evaluateTerm_eq_ok_iff (c := t.2).mpr ⟨h.1 t List.mem_cons_self, rfl⟩
            rw [term] at ok
            cases ok
        | ok a =>
            obtain ⟨assigned, rfl⟩ := evaluateTerm_eq_ok_iff.mp term
            apply (ih _).trans
            rw [List.forall_mem_cons, List.map_cons, List.sum_cons, add_assoc]
            exact ⟨fun h => ⟨⟨assigned, h.1⟩, h.2⟩, fun h => ⟨h.1.2, h.2⟩⟩
  refine (fold 0).trans (and_congr ?_ ?_)
  · simp [Over, SortedTable.keys]
  · simp [value, SortedTable.total]

/-- A polynomial in order evaluates to a number. -/
def Means (v : Assignment Rat) (p : Polynomial Rat) (y : Rat) : Prop :=
  p.Ordered ∧ p.evaluate v = .ok y

theorem means_iff : p.Means v y ↔ p.Ordered ∧ p.Over v.Assigns ∧ y = p.value v.total := by
  rw [Means, evaluate_eq_ok_iff]

/-- The polynomial is in order, and all its variables have values. -/
def HasValue (v : Assignment Rat) (p : Polynomial Rat) : Prop := p.Ordered ∧ p.Over v.Assigns

theorem HasValue.exists_means (h : p.HasValue v) : ∃ y, p.Means v y :=
  ⟨p.value v.total, means_iff.mpr ⟨h.1, h.2, rfl⟩⟩

theorem Means.hasValue (h : p.Means v y) : p.HasValue v :=
  ⟨h.1, (means_iff.mp h).2.1⟩

theorem evaluate_mono (h : p.evaluate v = .ok y) (continues : v.Continues v') :
    p.evaluate v' = .ok y := by
  obtain ⟨assigned, rfl⟩ := evaluate_eq_ok_iff.mp h
  refine evaluate_eq_ok_iff.mpr ⟨assigned.mono fun _ => continues.assigns, ?_⟩
  exact (value_congr assigned fun _ => continues.total_eq).symm

theorem Means.mono (h : p.Means v y) (continues : v.Continues v') : p.Means v' y :=
  ⟨h.1, evaluate_mono h.2 continues⟩

theorem Means.unique (h : p.Means v y) (h' : p.Means v z) : y = z := by
  have := h.2.symm.trans h'.2
  exact Except.ok.inj this

@[simp] theorem means_zero : (zero : Polynomial Rat).Means v 0 :=
  means_iff.mpr ⟨ordered_zero, over_zero, rfl⟩

@[simp] theorem means_constant (c : Rat) : (constant c).Means v c :=
  means_iff.mpr ⟨ordered_constant c, over_constant c, (value_constant c).symm⟩

theorem means_var {x : String} (h : v x = some y) : (var x).Means v y :=
  means_iff.mpr ⟨ordered_var x, over_var (by simp [Assignment.Assigns, h]),
    by simp [Assignment.total, h]⟩

theorem Means.add (h : p.Means v y) (h' : q.Means v z) : (p.add q).Means v (y + z) := by
  obtain ⟨ordered, assigned, rfl⟩ := means_iff.mp h
  obtain ⟨-, assigned', rfl⟩ := means_iff.mp h'
  exact means_iff.mpr ⟨ordered.add q, assigned.add assigned', (value_add ordered q).symm⟩

theorem Means.scale (h : p.Means v y) (k : Rat) : (p.scale k).Means v (y * k) := by
  obtain ⟨ordered, assigned, rfl⟩ := means_iff.mp h
  exact means_iff.mpr ⟨ordered.scale k, assigned.scale k, (value_scale p k).symm⟩

theorem Means.negate (h : p.Means v y) : p.negate.Means v (-y) := by
  obtain ⟨ordered, assigned, rfl⟩ := means_iff.mp h
  exact means_iff.mpr ⟨ordered.negate, assigned.negate, (value_negate p).symm⟩

theorem Means.subtract (h : p.Means v y) (h' : q.Means v z) :
    (p.subtract q).Means v (y - z) := by
  obtain ⟨ordered, assigned, rfl⟩ := means_iff.mp h
  obtain ⟨-, assigned', rfl⟩ := means_iff.mp h'
  exact means_iff.mpr
    ⟨ordered.subtract q, assigned.subtract assigned', (value_subtract ordered q).symm⟩

theorem Means.multiply (h : p.Means v y) (h' : q.Means v z) :
    (p.multiply q).Means v (y * z) := by
  obtain ⟨-, assigned, rfl⟩ := means_iff.mp h
  obtain ⟨-, assigned', rfl⟩ := means_iff.mp h'
  exact means_iff.mpr
    ⟨ordered_multiply p q, assigned.multiply assigned', (value_multiply p q).symm⟩

theorem means_foldl_add {total : Polynomial Rat} (h : total.Means v y)
    {ps : List (Polynomial Rat)} {zs : List Rat} (all : List.Forall₂ (Means v) ps zs) :
    (ps.foldl Polynomial.add total).Means v (zs.foldl (· + ·) y) := by
  induction all generalizing total y with
  | nil => exact h
  | cons head _ ih => exact ih (h.add head)

/-- A quotient exists when the divisor is a number other than zero. -/
theorem Means.divide (h : p.Means v y) (h' : q.Means v z) {r : Polynomial Rat}
    (quotient : p.divide q = .ok r) : z ≠ 0 ∧ r.Means v (y / z) := by
  obtain ⟨k, number, nonzero, rfl⟩ := divide_eq_ok_iff.mp quotient
  have same : z = k := by
    obtain ⟨ordered, -, rfl⟩ := means_iff.mp h'
    exact value_of_constantValue? ordered number
  refine ⟨by simpa [same] using nonzero, ?_⟩
  have scaled : y / z = y * (1 / k) := by rw [mul_one_div, same]
  exact scaled ▸ h.scale (1 / k)

end Evaluation

end Polynomial

end MipModel
