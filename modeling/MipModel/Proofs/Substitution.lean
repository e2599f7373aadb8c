import MipModel.Proofs.RingLaws

/-!
# Evaluation of operations and substitution

Over exact scalars evaluation respects every operation on polynomials. For sums, products and
multiples this is what their values say already. Substitution is the operation that is left: putting
a polynomial in place of a variable is evaluating with its value in place of the variable's
(`value_substitute`).

Each occurrence of the variable is replaced once. The replacement may contain the variable, which
then occurs in the result, and that is the only way in which it can occur there
(`over_substitute`).
-/

namespace MipModel

namespace Monomial

@[simp] theorem value_ofNames (w : String → Rat) (names : List String) :
    (ofNames names).value w = (names.map w).prod :=
  ((sortNames_perm names).map w).prod_eq

/-- The factors that are a variable and the others, under another value of that variable. -/
theorem value_update (w : String → Rat) (x : String) (z : Rat) (m : Monomial) :
    m.value (Function.update w x z) =
      z ^ (m.names.filter (· = x)).length * (ofNames (m.names.filter (· ≠ x))).value w := by
  obtain ⟨names⟩ := m
  rw [value_ofNames, value]
  induction names with
  | nil => simp
  | cons name names ih =>
      rw [List.map_cons, List.prod_cons, ih]
      by_cases same : name = x
      · rw [same, List.filter_cons_of_pos (by simp), List.filter_cons_of_neg (by simp),
          Function.update_self, List.length_cons]
        ring
      · rw [List.filter_cons_of_neg (by simpa using same),
          List.filter_cons_of_pos (by simpa using same), Function.update_of_ne same,
          List.map_cons, List.prod_cons]
        ring

end Monomial

namespace Polynomial

section Value

variable {w : String → Rat}

@[simp] theorem value_sum (ps : List (Polynomial Rat)) :
    (sum ps).value w = (ps.map (value w)).sum := by
  have fold : ∀ total : Polynomial Rat, total.Ordered →
      (ps.foldl add total).value w = total.value w + (ps.map (value w)).sum := by
    induction ps with
    | nil => simp
    | cons p ps ih =>
        intro total ordered
        rw [List.foldl_cons, ih _ (ordered.add p), value_add ordered, List.map_cons, List.sum_cons]
        ring
  exact (fold zero ordered_zero).trans (zero_add _)

/-- A polynomial multiplied by another one several times. -/
@[simp] theorem value_foldl_multiply (p q : Polynomial Rat) (names : List String) :
    (names.foldl (fun p _ => p.multiply q) p).value w = p.value w * q.value w ^ names.length := by
  induction names generalizing p with
  | nil => simp
  | cons name names ih =>
      rw [List.foldl_cons, ih, value_multiply, List.length_cons]
      ring

@[simp] theorem value_substituteFactors (x : String) (q : Polynomial Rat) (m : Monomial) (c : Rat) :
    (substituteFactors x q m c).value w = c * m.value (Function.update w x (q.value w)) := by
  rw [substituteFactors, value_multiply, value_foldl_multiply, value_constant, value_ofTerms,
    Monomial.value_update]
  simp only [List.map_cons, List.map_nil, List.sum_cons, List.sum_nil]
  ring

/-- The value after a substitution is the value under another assignment. -/
@[simp] theorem value_substitute (p : Polynomial Rat) (x : String) (q : Polynomial Rat) :
    (p.substitute x q).value w = p.value (Function.update w x (q.value w)) := by
  rw [substitute, value_sum, List.map_map]
  refine congrArg List.sum (List.map_congr_left fun t _ => ?_)
  exact value_substituteFactors x q t.1 t.2

end Value

section Variables

variable {α : Type} [Scalar α] {p q : Polynomial α} {S : String → Prop} {x : String}

/-- Products with another polynomial are over the variables of both, if there are any products. -/
theorem Over.foldl_multiply (h : p.Over S) {names : List String} (h' : names ≠ [] → q.Over S) :
    (names.foldl (fun p _ => p.multiply q) p).Over S := by
  induction names generalizing p with
  | nil => exact h
  | cons name names ih =>
      have right : q.Over S := h' (List.cons_ne_nil name names)
      exact ih (h.multiply right) fun _ => right

theorem over_substituteFactors {m : Monomial} (c : α) (others : ∀ y ∈ m.names, y ≠ x → S y)
    (replaced : x ∈ m.names → q.Over S) : (substituteFactors x q m c).Over S := by
  refine Over.multiply ((over_constant c).foldl_multiply fun occurs => replaced ?_) ?_
  · obtain ⟨y, member⟩ := List.exists_mem_of_ne_nil _ occurs
    obtain ⟨member, same⟩ := List.mem_filter.mp member
    rwa [of_decide_eq_true same] at member
  · intro m' hm y hy
    obtain rfl := List.mem_singleton.mp (mem_keys_ofTerms hm)
    obtain ⟨member, different⟩ := List.mem_filter.mp ((Monomial.sortNames_perm _).mem_iff.mp hy)
    exact others y member (of_decide_eq_true different)

/-- After a substitution there are the other variables, and those of the replacement if the variable
has occurred. -/
theorem over_substitute (others : ∀ y ∈ p.vars, y ≠ x → S y) (replaced : x ∈ p.vars → q.Over S) :
    (p.substitute x q).Over S := by
  apply over_sum
  intro r member
  obtain ⟨t, stored, rfl⟩ := List.mem_map.mp member
  have occurs : ∀ y ∈ t.1.names, y ∈ p.vars := (over_iff_vars.mpr fun y => id).names_of_mem stored
  refine over_substituteFactors t.2 ?_ ?_
  · exact fun y hy => others y (occurs y hy)
  · exact fun hx => replaced (occurs x hx)

/-- A replaced variable is left only if it had occurred and occurs in its replacement. -/
theorem mem_vars_of_mem_vars_substitute (h : x ∈ (p.substitute x q).vars) :
    x ∈ p.vars ∧ x ∈ q.vars := by
  have among : (p.substitute x q).Over fun y => y = x → x ∈ p.vars ∧ x ∈ q.vars := by
    apply over_substitute
    · exact fun y _ different same => absurd same different
    · exact fun occurs => over_iff_vars.mpr fun y member same => ⟨occurs, same ▸ member⟩
  exact over_iff_vars.mp among x h rfl

end Variables

section Evaluation

variable {p q : Polynomial Rat} {v : Assignment Rat} {y z : Rat}

/-- A quotient by a constant polynomial other than zero. -/
theorem Means.exists_divide (h : p.Means v y) (h' : q.Means v z) (constant : q.isConstant = true)
    (nonzero : z ≠ 0) : ∃ r, p.divide q = .ok r ∧ r.evaluate v = .ok (y / z) := by
  have number := constantValue?_eq_some_iff.mpr ⟨constant, rfl⟩
  have same : z = q.constantTerm := by
    obtain ⟨ordered, -, rfl⟩ := means_iff.mp h'
    exact value_of_constantValue? ordered number
  have different : (q.constantTerm == 0) = false := by rwa [beq_eq_false_iff_ne, ← same]
  have quotient : p.divide q = .ok (p.scale (1 / q.constantTerm)) :=
    divide_eq_ok_iff.mpr ⟨_, number, different, rfl⟩
  exact ⟨_, quotient, (h.divide h' quotient).2.2⟩

/-- Evaluating after a substitution is evaluating with the variable bound anew. -/
theorem Means.exists_substitute (h : p.Means v y) (h' : q.Means v z) (x : String) :
    ∃ s, (p.substitute x q).evaluate v = .ok s ∧
      p.evaluate (Function.update v x (some z)) = .ok s := by
  obtain ⟨-, assigned, -⟩ := means_iff.mp h
  obtain ⟨-, assigned', rfl⟩ := means_iff.mp h'
  have bound : Assignment.total (Function.update v x (some (q.value v.total))) =
      Function.update v.total x (q.value v.total) := by
    funext name
    by_cases same : name = x
    · rw [same, Assignment.total, Function.update_self, Function.update_self, Option.getD_some]
    · rw [Assignment.total, Function.update_of_ne same, Function.update_of_ne same,
        Assignment.total]
  refine ⟨_, evaluate_eq_ok_iff.mpr ⟨?_, rfl⟩, evaluate_eq_ok_iff.mpr ⟨?_, ?_⟩⟩
  · refine over_substitute ?_ ?_
    · exact fun name occurs _ => over_iff_vars.mp assigned name occurs
    · exact fun _ => assigned'
  · refine assigned.mono fun name has => ?_
    by_cases same : name = x
    · rw [same, Assignment.Assigns, Function.update_self, Option.isSome_some]
    · rwa [Assignment.Assigns, Function.update_of_ne same]
  · simp [bound]

/-- Under an assignment of all their variables, sums, differences, negations, multiples, products
and quotients of canonical polynomials evaluate to those of their values, and a substitution
evaluates to the value with the variable bound to the value of the replacement. The variable occurs
after a substitution only if it had occurred and occurs in the replacement. -/
theorem evaluate_operations (hp : p.Canonical) (hq : q.Canonical) (x : String) (k : Rat) :
    (∀ v : Assignment Rat, (∀ name ∈ p.vars, v.Assigns name) → (∀ name ∈ q.vars, v.Assigns name) →
      ∃ y z, p.evaluate v = .ok y ∧ q.evaluate v = .ok z ∧
        (p.add q).evaluate v = .ok (y + z) ∧ (p.subtract q).evaluate v = .ok (y - z) ∧
        p.negate.evaluate v = .ok (-y) ∧ (p.scale k).evaluate v = .ok (k * y) ∧
        (p.multiply q).evaluate v = .ok (y * z) ∧
        (q.isConstant = true → z ≠ 0 → ∃ r, p.divide q = .ok r ∧ r.evaluate v = .ok (y / z)) ∧
        ∃ s, (p.substitute x q).evaluate v = .ok s ∧
          p.evaluate (Function.update v x (some z)) = .ok s) ∧
    (x ∈ (p.substitute x q).vars → x ∈ p.vars ∧ x ∈ q.vars) := by
  refine ⟨fun v assigned assigned' => ?_, mem_vars_of_mem_vars_substitute⟩
  obtain ⟨y, h⟩ := HasValue.exists_means ⟨hp.ordered, over_iff_vars.mpr assigned⟩
  obtain ⟨z, h'⟩ := HasValue.exists_means ⟨hq.ordered, over_iff_vars.mpr assigned'⟩
  refine ⟨y, z, h.2, h'.2, (h.add h').2, (h.subtract h').2, h.negate.2, ?_, (h.multiply h').2,
    h.exists_divide h', h.exists_substitute h' x⟩
  rw [mul_comm]
  exact (h.scale k).2

/-- The variable occurs twice in one term and once in another one, and again in the replacement. -/
theorem square_substituted :
    let x : Polynomial Rat := .var "x"
    let y : Polynomial Rat := .var "y"
    let p := ((x.multiply x).multiply y).subtract (x.scale (1 / 2))
    let q := x.add (constant 1)
    let v : Assignment Rat := fun name => if name = "x" then some 2 else some 3
    p.Canonical ∧ q.Canonical ∧ (∀ name ∈ p.vars, v.Assigns name) ∧
      (∀ name ∈ q.vars, v.Assigns name) ∧ (p.multiply q).evaluate v = .ok 33 ∧
      (p.substitute "x" q).evaluate v = .ok (51 / 2) ∧ "x" ∈ (p.substitute "x" q).vars ∧
      "x" ∈ p.vars ∧ "x" ∈ q.vars := by
  intro x y p q v
  have single (name : String) : (var name : Polynomial Rat).Canonical :=
    (isVariable_var name).canonical (by decide) (by simp)
  have hp : p.Canonical := (canonical_multiply _ y).subtract ((single "x").scale _)
  have hq : q.Canonical := (single "x").add (canonical_constant 1)
  obtain ⟨evaluated, occurs⟩ := evaluate_operations hp hq "x" 1
  have assigned : ∀ name ∈ p.vars, v.Assigns name :=
    (by decide +kernel : ∀ name ∈ p.vars, (v name).isSome = true)
  have assigned' : ∀ name ∈ q.vars, v.Assigns name :=
    (by decide +kernel : ∀ name ∈ q.vars, (v name).isSome = true)
  obtain ⟨y, z, left, right, -, -, -, -, product, -, s, substituted, bound⟩ :=
    evaluated v assigned assigned'
  have value : p.evaluate v = .ok 11 := by decide +kernel
  have value' : q.evaluate v = .ok 3 := by decide +kernel
  obtain rfl : y = 11 := Except.ok.inj (left.symm.trans value)
  obtain rfl : z = 3 := Except.ok.inj (right.symm.trans value')
  have anew : p.evaluate (Function.update v "x" (some 3)) = .ok (51 / 2) := by decide +kernel
  obtain rfl : s = 51 / 2 := Except.ok.inj (bound.symm.trans anew)
  have stays : "x" ∈ (p.substitute "x" q).vars := by decide +kernel
  rw [show (11 : Rat) * 3 = 33 by norm_num] at product
  exact ⟨hp, hq, assigned, assigned', product, substituted, stays, occurs stays⟩

end Evaluation

end Polynomial
end MipModel
