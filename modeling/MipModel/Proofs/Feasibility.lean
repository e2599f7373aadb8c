import MipModel.Proofs.Rows
import MipModel.Model.Feasibility

/-!
# Feasible assignments

An assignment is feasible at tolerance zero when every variable has a value in its domain and every
row is satisfied. On a feasible assignment a carried gadget means something: its variable and its
switches have values, truth values where they are binary, and its rows hold of them.
-/

namespace MipModel

namespace Model

/-- Every variable has a value in its domain, and every constraint is satisfied exactly. -/
structure Feasible (m : Model Rat) (v : Assignment Rat) : Prop where
  domains : ∀ x ∈ m.vars.values, ∃ a, v x.name = some a ∧ x.admits a 0 = true
  rows : ∀ c ∈ m.constraints.values, c.Satisfied v

theorem allHold_iff {β : Type} {check : β → Outcome Rat Bool} {bs : List β} :
    allHold check bs = .ok true ↔ ∀ b ∈ bs, check b = .ok true := by
  induction bs with
  | nil => simp [allHold]
  | cons b bs ih =>
      rw [allHold, List.forall_mem_cons, ← ih, Build.bind_eq_ok_iff]
      constructor
      · rintro ⟨result, checked, rest⟩
        cases result with
        | true => exact ⟨checked, rest⟩
        | false => cases rest
      · rintro ⟨checked, rest⟩
        exact ⟨true, checked, rest⟩

theorem checkVariable_iff {v : Assignment Rat} {x : Variable Rat} :
    checkVariable v 0 x = .ok true ↔ ∃ a, v x.name = some a ∧ x.admits a 0 = true := by
  unfold checkVariable Polynomial.lookup
  cases v x.name with
  | none => exact iff_of_false (fun h => (nomatch h)) fun ⟨_, h, _⟩ => (nomatch h)
  | some a =>
      refine ⟨fun h => ⟨a, rfl, Except.ok.inj h⟩, ?_⟩
      rintro ⟨_, same, admitted⟩
      cases same
      exact congrArg Except.ok admitted

theorem isFeasible_iff {m : Model Rat} {v : Assignment Rat} :
    m.isFeasible v 0 = .ok true ↔ m.Feasible v := by
  rw [isFeasible, Build.bind_eq_ok_iff]
  constructor
  · rintro ⟨result, domains, rows⟩
    cases result with
    | false => cases rows
    | true =>
        exact ⟨fun x member => checkVariable_iff.mp (allHold_iff.mp domains x member),
          allHold_iff.mp rows⟩
  · intro h
    exact ⟨true, allHold_iff.mpr fun x member => checkVariable_iff.mpr (h.domains x member),
      allHold_iff.mpr h.rows⟩

theorem exists_allHold {β : Type} {check : β → Outcome Rat Bool} {bs : List β}
    (total : ∀ b ∈ bs, ∃ result, check b = .ok result) : ∃ result, allHold check bs = .ok result := by
  induction bs with
  | nil => exact ⟨true, rfl⟩
  | cons b bs ih =>
      obtain ⟨⟨result, checked⟩, total⟩ := List.forall_mem_cons.mp total
      rw [allHold, checked]
      cases result with
      | true => exact ih total
      | false => exact ⟨false, rfl⟩

/-- An assignment of all variables is found to be feasible or found not to be. -/
theorem exists_isFeasible {m : Model Rat} {v : Assignment Rat}
    (vars : ∀ y ∈ m.vars.values, v.Assigns y.name)
    (rows : ∀ c ∈ m.constraints.values, c.lhs.Over v.Assigns) :
    ∃ result, m.isFeasible v 0 = .ok result := by
  have domains : ∃ result, allHold (checkVariable v 0) m.vars.values = .ok result := by
    refine exists_allHold fun y member => ?_
    obtain ⟨a, assigned⟩ := Option.isSome_iff_exists.mp (vars y member)
    exact ⟨y.admits a 0, by simp [checkVariable, Polynomial.lookup, assigned]⟩
  obtain ⟨result, domains⟩ := domains
  rw [isFeasible, domains]
  cases result with
  | false => exact ⟨false, rfl⟩
  | true =>
      refine exists_allHold fun c member => ?_
      have evaluated := Polynomial.evaluate_eq_ok_iff.mpr ⟨rows c member, rfl⟩
      exact ⟨c.comparison.holds (c.lhs.value v.total) c.rhs 0, by
        rw [Constraint.isSatisfied, evaluated]; rfl⟩

end Model

namespace Variable

/-- The values of an auxiliary of a kind: truth values, or all numbers. -/
def Kind.Allows (kind : Variable.Kind) (a : Rat) : Prop := kind = .binary → a = 0 ∨ a = 1

/-- Exactly the integers are whole at tolerance zero. -/
theorem eq_intCast_of_isWhole {a : Rat} (h : isWhole a 0 = true) : ∃ n : Int, a = n := by
  have near := of_decide_eq_true h
  have same : a = Rational.round a := by
    change (if a - Rational.round a < 0 then -(a - Rational.round a)
      else a - Rational.round a) ≤ 0 at near
    split at near <;> linarith
  unfold Rational.round at same
  split at same
  · exact ⟨_, same⟩
  · exact ⟨-(-a + 1 / 2).floor, by rw [Int.cast_neg]; exact same⟩

theorem define_auxiliary {kind : Variable.Kind} (real : kind ≠ .integer) (name : String) :
    ∃ x : Variable Rat, (Model.auxiliaryOptions kind).define name = .ok x ∧
      ∀ a, x.admits a 0 = true ↔ kind.Allows a := by
  cases kind with
  | integer => exact absurd rfl real
  | continuous =>
      refine ⟨⟨name, .continuous, none, none⟩, rfl, fun a => ?_⟩
      simp [admits, Kind.Allows]
  | binary =>
      refine ⟨⟨name, .binary, some 0, some 1⟩, rfl, fun a => ?_⟩
      simp only [admits, Kind.Allows, true_imp_iff]
      constructor
      · intro h
        simp only [Option.any_some, Bool.and_eq_true, Bool.not_eq_true', decide_eq_false_iff_not,
          not_lt, sub_zero, gt_iff_lt, add_zero] at h
        obtain ⟨⟨lower, upper⟩, whole⟩ := h
        obtain ⟨n, rfl⟩ := eq_intCast_of_isWhole (by simpa using whole)
        have : n = 0 ∨ n = 1 := by
          have : (0 : Int) ≤ n := by exact_mod_cast lower
          have : n ≤ 1 := by exact_mod_cast upper
          omega
        rcases this with rfl | rfl
        · exact .inl rfl
        · exact .inr rfl
      · rintro (rfl | rfl)
        · decide +kernel
        · decide +kernel

end Variable

end MipModel
