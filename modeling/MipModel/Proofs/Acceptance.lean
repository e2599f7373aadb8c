import Mathlib
import MipModel.Proofs.ClosedText
import MipModel.Proofs.Cones

/-!
# Accepted models

Which models the two back ends accept. A model can be written when its degrees are at most two and
there is a term, or else a variable, for every sum. The conic form demands continuous variables and
linear constraints, and a column for every name (`accepted_iff`). Degrees are checked before
anything else is, the objective first and the constraints in their order, and the first place where
the degree is too high is the one that is reported.
-/

namespace MipModel

open Build

namespace Lp

variable {α : Type} {m : Model α} {p : Polynomial α} {filler : Option String} {location : String}
  {degree : Nat} {e : Error α}

section Degrees

/-- The degree at a place is above two: in the objective or, where that is not at fault, in the
first constraint that is. -/
def TooHigh (m : Model α) (location : String) (degree : Nat) : Prop :=
  (2 < m.objective.degree ∧ location = "objective" ∧ degree = m.objective.degree) ∨
    (m.objective.degree ≤ 2 ∧ ∃ before id c after,
      m.constraints.entries = before ++ (id, c) :: after ∧ (∀ e ∈ before, e.2.degree ≤ 2) ∧
      2 < c.degree ∧ location = "constraint " ++ id ∧ degree = c.degree)

theorem limitDegree_eq_error_iff :
    limitDegree location degree = .error e ↔ 2 < degree ∧ e = .degreeTooHigh location degree := by
  unfold limitDegree
  split
  next high => simpa [high] using eq_comm
  next low => simp [low]

theorem limitDegrees_eq_ok_iff : limitDegrees m = .ok () ↔
    m.objective.degree ≤ 2 ∧ ∀ c ∈ m.constraints.values, c.degree ≤ 2 := by
  simp only [limitDegrees, bind_eq_ok_iff, Unique.exists_iff, PUnit.default_eq_unit,
    limitDegree_eq_ok_iff, forM_ok, Registry.values, List.forall_mem_map]

/-- The first degree that is too high is the one that is refused. -/
theorem limitDegrees_eq_error_iff : limitDegrees m = .error e ↔
    ∃ location degree, TooHigh m location degree ∧ e = .degreeTooHigh location degree := by
  simp only [limitDegrees, bind_eq_error_iff, Unique.exists_iff, PUnit.default_eq_unit,
    limitDegree_eq_error_iff, limitDegree_eq_ok_iff, forM_error]
  constructor
  · rintro (⟨high, rfl⟩ | ⟨low, before, ⟨id, c⟩, after, split, earlier, high, rfl⟩)
    · exact ⟨_, _, .inl ⟨high, rfl, rfl⟩, rfl⟩
    · exact ⟨_, _, .inr ⟨low, before, id, c, after, split, earlier, high, rfl, rfl⟩, rfl⟩
  · rintro ⟨_, _, objective | row, rfl⟩
    · obtain ⟨high, rfl, rfl⟩ := objective
      exact .inl ⟨high, rfl⟩
    · obtain ⟨low, before, id, c, after, split, earlier, high, rfl, rfl⟩ := row
      exact .inr ⟨low, before, (id, c), after, split, earlier, high, rfl⟩

/-- Some place is at fault when the objective or some constraint is. -/
theorem exists_tooHigh_iff : (∃ location degree, TooHigh m location degree) ↔
    2 < m.objective.degree ∨ ∃ c ∈ m.constraints.values, 2 < c.degree := by
  have refused : (∃ location degree, TooHigh m location degree) ↔
      ∃ e, limitDegrees m = .error e := by
    simp only [limitDegrees_eq_error_iff]
    exact ⟨fun ⟨l, d, high⟩ => ⟨_, l, d, high, rfl⟩, fun ⟨_, l, d, high, _⟩ => ⟨l, d, high⟩⟩
  rw [refused, exists_error_iff, Unique.exists_iff, PUnit.default_eq_unit, limitDegrees_eq_ok_iff]
  simp only [not_and_or, not_forall, not_le, exists_prop]

end Degrees

section Sums

/-- A sum can be written when it has terms or there is a variable to fill in. -/
theorem exists_ofPolynomial_iff : (∃ body, Body.ofPolynomial p filler = .ok body) ↔
    (filler = none → ¬(p.linearTerms = [] ∧ p.quadraticTerms = [])) := by
  unfold Body.ofPolynomial
  split
  next name _ _ => exact iff_of_true ⟨_, rfl⟩ nofun
  next linear quadratic =>
    exact iff_of_false nofun fun nonempty => nonempty rfl ⟨linear, quadratic⟩
  next refused =>
    refine iff_of_true ⟨_, rfl⟩ ?_
    rintro rfl ⟨linear, quadratic⟩
    exact refused linear quadratic rfl

theorem failsWith_ofPolynomial :
    FailsWith (· = .unsupported "cannot write an LP model without variables")
      (Body.ofPolynomial p filler) := by
  unfold Body.ofPolynomial
  split
  · exact .ok _
  · exact .error rfl
  · exact .ok _

end Sums

section Documents

variable [Scalar α]

/-- The document of a model with passable degrees is made of the sums in it. -/
theorem exists_ofModel_iff : (∃ d, Document.ofModel m = .ok d) ↔ limitDegrees m = .ok () ∧
    (∃ body, Body.ofPolynomial m.objective (fillerOf m) = .ok body) ∧
    ∀ c ∈ m.constraints.values, ∃ body, Body.ofPolynomial c.lhs (fillerOf m) = .ok body := by
  rw [Registry.values, List.forall_mem_map]
  constructor
  · rintro ⟨d, made⟩
    have described := describes_of_ofModel made
    obtain ⟨⟨⟩, limited, -⟩ := bind_eq_ok_iff.mp made
    refine ⟨limited, ⟨_, described.objective⟩, fun e stored => ?_⟩
    obtain ⟨r, -, body, -⟩ := described.rows.exists_right stored
    exact ⟨_, body⟩
  · rintro ⟨limited, ⟨objective, made⟩, bodies⟩
    have rows : ∃ rows, (m.constraints.entries.mapM fun e =>
        Row.ofConstraint (fillerOf m) e.1 e.2) = .ok rows := by
      refine exists_mapM_iff.mpr fun e stored => ?_
      obtain ⟨body, made⟩ := bodies e stored
      exact ⟨_, bind_eq_ok_iff.mpr ⟨body, made, rfl⟩⟩
    obtain ⟨rows, laid⟩ := rows
    exact ⟨_, bind_eq_ok_iff.mpr ⟨(), limited, bind_eq_ok_iff.mpr ⟨objective, made,
      bind_eq_ok_iff.mpr ⟨rows, laid, rfl⟩⟩⟩⟩

theorem write_eq_error_iff : write m = .error e ↔ Document.ofModel m = .error e := by
  rw [write, bind_eq_error_iff]
  exact or_iff_left fun ⟨_, _, written⟩ => nomatch written

theorem write_eq_tooHigh_iff :
    write m = .error (.degreeTooHigh location degree) ↔ TooHigh m location degree := by
  rw [write_eq_error_iff, Document.ofModel, bind_eq_error_iff, limitDegrees_eq_error_iff]
  constructor
  · rintro (⟨l, d, high, same⟩ | ⟨_, -, failed⟩)
    · cases same
      exact high
    · -- The sums come after the degrees, and their error is another one.
      have other := failsWith_ofPolynomial.bind
        (fun objective => (FailsWith.mapM fun e _ =>
          failsWith_ofPolynomial.bind fun _ => .ok _).bind fun rows => .ok _) _ failed
      cases other
  · exact fun high => .inl ⟨location, degree, high, rfl⟩

/-- Where degrees are passable, only an empty sum without a variable to fill in stands in the way
of writing a model. -/
theorem exists_write_error_iff (objective : m.objective.degree ≤ 2)
    (rows : ∀ c ∈ m.constraints.values, c.degree ≤ 2)
    (compared : ∀ c ∈ m.constraints.values, c.IsComparison) :
    (∃ e, write m = .error e) ↔ m.vars.values = [] ∧
      (m.objective.withoutConstant.isZero = true ∨
        ∃ c ∈ m.constraints.values, c.lhs.isZero = true) := by
  have filler : fillerOf m = none ↔ m.vars.values = [] := by
    rw [fillerOf, Option.map_eq_none_iff, List.head?_eq_none_iff]
  have first : (∃ body, Body.ofPolynomial m.objective (fillerOf m) = .ok body) ↔
      (m.vars.values = [] → ¬m.objective.withoutConstant.isZero = true) := by
    rw [exists_ofPolynomial_iff, filler, Polynomial.isZero_iff_of_degree_le_two
      (Polynomial.degree_withoutConstant_le objective) (Polynomial.one_notMem_withoutConstant _),
      Polynomial.linearTerms_withoutConstant, Polynomial.quadraticTerms_withoutConstant]
  have others : (∀ c ∈ m.constraints.values, ∃ body,
      Body.ofPolynomial c.lhs (fillerOf m) = .ok body) ↔
      ∀ c ∈ m.constraints.values, m.vars.values = [] → ¬c.lhs.isZero = true := by
    refine forall₂_congr fun c stored => ?_
    rw [exists_ofPolynomial_iff, filler, Polynomial.isZero_iff_of_degree_le_two (rows c stored)
      (compared c stored).one_notMem]
  simp only [write_eq_error_iff]
  rw [exists_error_iff, exists_ofModel_iff,
    and_iff_right (limitDegrees_eq_ok_iff.mpr ⟨objective, rows⟩), first, others]
  by_cases none : m.vars.values = []
  · simp only [none, true_implies, true_and, not_and_or, not_not, not_forall, exists_prop]
  · simp [none]

end Documents

end Lp

namespace Conic

variable {m : Model Float} [Naming Float] [Compression Float]

/-- A model has a conic form when the form supports all of its kinds and degrees and all names have
columns. -/
theorem exists_form_iff (reachable : m.Reachable) : (∃ form, Form.ofModel m = .ok form) ↔
    (∀ v ∈ m.vars.values, v.kind = .continuous) ∧ m.objective.degree ≤ 2 ∧
      (∀ c ∈ m.constraints.values, c.degree ≤ 1) ∧ m.SelfContained := by
  constructor
  · rintro ⟨form, made⟩
    have contained := selfContained_of_ofModel reachable made
    simp only [Form.ofModel, bind_eq_ok_iff] at made
    obtain ⟨⟨⟩, continuous, ⟨⟩, degree, _, -, _, -, rows, laid, -⟩ := made
    have degree := Lp.limitDegree_eq_ok_iff.mp degree
    rw [Polynomial.degree_le_iff, keys_minimand reachable.normal_objective] at degree
    refine ⟨continuous_of_checkContinuous continuous, Polynomial.degree_le_iff.mpr degree,
      List.forall_mem_map.mpr fun e stored => ?_, contained⟩
    obtain ⟨row, -, here⟩ := (mapM_eq_ok_iff.mp laid).exists_right stored
    exact (linear_of_constraintRow here).1
  · rintro ⟨continuous, degree, linear, contained⟩
    cases outcome : Form.ofModel m with
    | ok form => exact ⟨form, rfl⟩
    | error e =>
        obtain ⟨name, mentioned, absent, -⟩ :=
          failsWith_ofModel reachable continuous degree linear e outcome
        exact absurd (contained name mentioned)
          (Bool.eq_false_iff.mp (Registry.contains_eq_false_iff.mpr absent))

end Conic

/-- The conic form accepts a model of comparisons when all of its variables are continuous and
registered, its objective is at most quadratic and its constraints are linear. A model is not
written when a degree is above two, and the objective, or else the first constraint at fault, is
named as the place. Otherwise it is not written when a sum is empty and there is no variable. -/
theorem accepted_iff [Naming Float] [Compression Float] {m : Model Float}
    (reachable : m.Reachable) (compared : ∀ c ∈ m.constraints.values, c.IsComparison) :
    ((∃ form, Conic.Form.ofModel m = .ok form) ↔
      (∀ v ∈ m.vars.values, v.kind = .continuous) ∧ m.objective.degree ≤ 2 ∧
        (∀ c ∈ m.constraints.values, c.degree ≤ 1) ∧ m.SelfContained) ∧
    (∀ location degree,
      Lp.write m = .error (.degreeTooHigh location degree) ↔ Lp.TooHigh m location degree) ∧
    ((∃ location degree, Lp.write m = .error (.degreeTooHigh location degree)) ↔
      2 < m.objective.degree ∨ ∃ c ∈ m.constraints.values, 2 < c.degree) ∧
    (m.objective.degree ≤ 2 → (∀ c ∈ m.constraints.values, c.degree ≤ 2) →
      ((∃ e, Lp.write m = .error e) ↔ m.vars.values = [] ∧
        (m.objective.withoutConstant.isZero = true ∨
          ∃ c ∈ m.constraints.values, c.lhs.isZero = true))) := by
  refine ⟨Conic.exists_form_iff reachable, fun _ _ => Lp.write_eq_tooHigh_iff, ?_,
    fun objective rows => Lp.exists_write_error_iff objective rows compared⟩
  simp only [Lp.write_eq_tooHigh_iff, Lp.exists_tooHigh_iff]

/-- Two constraints are of too high a degree, and the first of them is reported. -/
theorem cubic_row_refused :
    let x : Polynomial Float := .var "x"
    let square := x.multiply x
    let linear : Constraint Float := .compare x .ge (.constant 1)
    let cubic : Constraint Float := .compare (x.multiply square) .le .zero
    let quartic : Constraint Float := .compare (square.multiply square) .le .zero
    let m : Model Float := .build .minimize .standard [.registerAs "x" .free,
      .addConstraint linear, .addConstraint cubic, .addConstraint quartic]
    Lp.write m = .error (.degreeTooHigh "constraint c00001" 3) ∧
      ¬∃ form, Conic.Form.ofModel m = .ok form := by
  intro x square linear cubic quartic m
  have entries : m.constraints.entries =
      [("c00000", linear), ("c00001", cubic), ("c00002", quartic)] := by decide +kernel
  have values : m.constraints.values = [linear, cubic, quartic] := by
    rw [Registry.values, entries]
    rfl
  have compared : ∀ c ∈ m.constraints.values, c.IsComparison := by
    simp only [values, List.forall_mem_cons]
    exact ⟨⟨_, _, _, Polynomial.ordered_var "x", rfl⟩,
      ⟨_, _, _, Polynomial.ordered_multiply x square, rfl⟩,
      ⟨_, _, _, Polynomial.ordered_multiply square square, rfl⟩, List.forall_mem_nil _⟩
  have objective : m.objective.degree ≤ 2 := by decide +kernel
  have small : linear.degree ≤ 2 := by decide +kernel
  have three : cubic.degree = 3 := by decide +kernel
  obtain ⟨conic, tooHigh, -, -⟩ := accepted_iff (Model.reachable_build _ _ _) compared
  constructor
  · refine (tooHigh _ _).mpr (.inr ⟨objective, [("c00000", linear)], "c00001", cubic,
      [("c00002", quartic)], entries, ?_, by omega, rfl, three.symm⟩)
    exact List.forall_mem_singleton.mpr small
  · intro formed
    obtain ⟨-, -, low, -⟩ := conic.mp formed
    have one : cubic.degree ≤ 1 := low cubic (values ▸ .tail _ (.head _))
    omega

end MipModel
