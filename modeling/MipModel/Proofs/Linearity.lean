import MipModel.Proofs.Degrees
import MipModel.Proofs.Meaning
import MipModel.Proofs.RaisedErrors
import MipModel.Proofs.Reachability
import MipModel.Expr.Classification
import MipModel.Linearization.Naming
import MipModel.Scalar.Binary64

/-!
# Soundness of the classification

The shape of an expression is found without evaluating it. What a shape promises about the
polynomial that evaluation gives is said by `Classification.Describes`, and every rule for shapes
keeps the promise. A shape does not look into the body of a sum, so the promise is kept for
expressions without nonlinear parts only, where the search over all parts has found nothing.

Such an expression can be evaluated directly: evaluation never comes upon a construct or upon a
divisor with variables, whatever else may go wrong (`evaluate_of_linear`).
-/

namespace MipModel

open Build

variable {α : Type} [Scalar α]

theorem Polynomial.IsVariable.degree_le_one {p : Polynomial α} {x : String}
    (h : p.IsVariable x) : p.degree ≤ 1 := by
  rw [Polynomial.degree_le_iff, h.keys]
  rintro m (_ | ⟨_, none⟩)
  · exact Nat.le_refl 1
  · cases none

namespace Classification

/-- What a shape promises about a polynomial. -/
def Describes : Classification → Polynomial α → Prop
  | constant, p => p.isConstant = true
  | variableReference, p => ∃ x, p.IsVariable x
  | linear, p => p.degree ≤ 1
  | nonlinear, _ => True

section Rules

variable {c d : Classification} {p q r : Polynomial α}

theorem Describes.degree_le_one (h : c.Describes p) (linear : c ≠ nonlinear) : p.degree ≤ 1 := by
  cases c with
  | constant => exact (Polynomial.isConstant_iff.mp h).trans (Nat.zero_le 1)
  | variableReference =>
      obtain ⟨x, isVariable⟩ := h
      exact isVariable.degree_le_one
  | linear => exact h
  | nonlinear => exact absurd rfl linear

/-- The shape around an operand describes what has at most the degree of the operand. -/
theorem Describes.widen (h : c.Describes p) (bound : ∀ n, p.degree ≤ n → q.degree ≤ n) :
    c.widen.Describes q := by
  cases c with
  | constant => exact Polynomial.isConstant_iff.mpr (bound 0 (Polynomial.isConstant_iff.mp h))
  | variableReference => exact bound 1 (h.degree_le_one (by decide))
  | linear => exact bound 1 h
  | nonlinear => trivial

/-- The shape of a sum describes what has at most the degree of both operands. -/
theorem Describes.add (h : c.Describes p) (h' : d.Describes q)
    (bound : ∀ n, p.degree ≤ n → q.degree ≤ n → r.degree ≤ n) : (c.add d).Describes r := by
  by_cases first : c = nonlinear
  · subst first
    trivial
  by_cases second : d = nonlinear
  · subst second
    cases c <;> trivial
  have linear := bound 1 (h.degree_le_one first) (h'.degree_le_one second)
  cases c with
  | constant =>
      cases d with
      | constant =>
          have none := bound 0 (Polynomial.isConstant_iff.mp h) (Polynomial.isConstant_iff.mp h')
          exact Polynomial.isConstant_iff.mpr none
      | variableReference | linear => exact linear
      | nonlinear => trivial
  | variableReference | linear =>
      cases d with
      | constant | variableReference | linear => exact linear
      | nonlinear => trivial
  | nonlinear => trivial

theorem Describes.mul (h : c.Describes p) (h' : d.Describes q) :
    (c.mul d).Describes (p.multiply q) := by
  by_cases second : d = constant
  · subst second
    have scaled : c.widen.Describes (p.multiply q) := h.widen fun n bound =>
      Polynomial.degree_multiply_le bound (Polynomial.isConstant_iff.mp h')
    cases c <;> exact scaled
  by_cases first : c = constant
  · subst first
    have scaled : d.widen.Describes (p.multiply q) := h'.widen fun n bound => by
      have := Polynomial.degree_multiply_le (Polynomial.isConstant_iff.mp h) bound
      rwa [Nat.zero_add] at this
    cases d <;> exact scaled
  -- Two operands with variables make a product that nothing is promised about.
  have product : c.mul d = nonlinear := by
    cases c <;> cases d <;> first | rfl | exact absurd rfl first | exact absurd rfl second
  rw [product]
  trivial

theorem Describes.div (h : c.Describes p) (quotient : p.divide q = .ok r) :
    (c.div d).Describes r := by
  unfold Classification.div
  split
  · exact h.widen fun n bound => Polynomial.degree_divide_le bound quotient
  · trivial

theorem Describes.sum {ps : List (Polynomial α)} (h : ∀ p ∈ ps, c.Describes p)
    (linear : c ≠ nonlinear) : c.sum.Describes (Polynomial.sum ps) := by
  cases c with
  | constant =>
      have none := Polynomial.degree_sum_le fun p member => Polynomial.isConstant_iff.mp (h p member)
      exact Polynomial.isConstant_iff.mpr none
  | variableReference | linear =>
      exact Polynomial.degree_sum_le fun p member => (h p member).degree_le_one linear
  | nonlinear => exact absurd rfl linear

omit [Scalar α] in
theorem ne_nonlinear_of_isLinear (h : c.isLinear = true) : c ≠ nonlinear := by
  rintro rfl
  cases h

end Rules
end Classification

/-- The shape of a polynomial at hand describes it. -/
theorem Polynomial.describes_classification (p : Polynomial α) : p.classification.Describes p := by
  unfold Polynomial.classification
  split
  next isConstant => exact isConstant
  next =>
    split
    next single =>
      obtain ⟨x, single⟩ := Option.isSome_iff_exists.mp single
      exact ⟨x, isVariable_of_asVariable? single⟩
    next =>
      split
      next low => exact low
      next => trivial

section References

variable {families : Families α} {vars : Registry (Variable α)} {family : String}
variable {indices : List (IndexExpr α)} {scope : Scope α} {p : Polynomial α}

/-- Only wildcards resolve to wildcards. -/
theorem IndexExpr.resolve_ne_wildcard {i : IndexExpr α} {c : Pattern.Component}
    (h : i.resolve scope = .ok c) (fixed : i.isWildcard = false) : c ≠ .wildcard := by
  cases i with
  | literal n =>
      cases h
      rintro ⟨⟩
  | symbol name =>
      unfold IndexExpr.resolve at h
      split at h <;> cases h <;> rintro ⟨⟩
  | wildcard => cases fixed
  | computed e =>
      rw [IndexExpr.resolve] at h
      obtain ⟨y, -, h⟩ := bind_eq_ok_iff.mp h
      split at h <;> cases h
      rintro ⟨⟩

theorem IndexExpr.hasWildcard_of_resolveAll {pattern : Pattern}
    (h : IndexExpr.resolveAll scope indices = .ok pattern)
    (fixed : indices.any IndexExpr.isWildcard = false) : pattern.hasWildcard = false := by
  induction indices generalizing pattern with
  | nil =>
      cases h
      rfl
  | cons i indices ih =>
      rw [List.any_cons, Bool.or_eq_false_iff] at fixed
      simp only [IndexExpr.resolveAll, bind_eq_ok_iff, pure_eq_ok_iff] at h
      obtain ⟨c, first, rest, remaining, rfl⟩ := h
      have here := IndexExpr.resolve_ne_wildcard first fixed.1
      have later := ih remaining fixed.2
      simpa [Pattern.hasWildcard, here] using later

/-- The shape of a reference describes what it stands for. -/
theorem Families.describes_resolve (registered : ∀ f ∈ families.values, f.Registered vars)
    (h : families.resolve family indices scope = .ok p) :
    (Expr.var family indices).classification.Describes p := by
  obtain ⟨f, found, h⟩ := bind_eq_ok_iff.mp h
  obtain ⟨pattern, resolved, h⟩ := bind_eq_ok_iff.mp h
  have members := registered f (mem_values_of_lookup found)
  have variable_of_member : ∀ q ∈ f.members.values, ∃ x, q.IsVariable x := fun q member =>
    let ⟨x, isVariable, _⟩ := members q member
    ⟨x, isVariable⟩
  unfold Expr.classification
  split at h
  next wildcard =>
    have open' : indices.any IndexExpr.isWildcard = true := by
      by_contra fixed
      rw [IndexExpr.hasWildcard_of_resolveAll resolved (by simpa using fixed)] at wildcard
      cases wildcard
    rw [if_pos open']
    cases h
    apply Polynomial.degree_sum_le
    intro q hq
    obtain ⟨e, he, rfl⟩ := List.mem_map.mp hq
    obtain ⟨x, isVariable⟩ := variable_of_member e.2 (List.mem_map_of_mem (List.mem_filter.mp he).1)
    exact isVariable.degree_le_one
  next =>
    split at h
    next =>
      obtain ⟨x, isVariable⟩ := variable_of_member p (Family.mem_values_of_lookup h)
      split
      · exact isVariable.degree_le_one
      · exact ⟨x, isVariable⟩
    next => cases h

end References

/-- A failure of the computation is about something other than a feature that is not supported or a
divisor that is not constant, bindings aside. -/
def Admits {β : Type} (o : Outcome α β) : Prop :=
  ∀ e, o = .error e →
    (∀ feature, e.root ≠ .unsupported feature) ∧ ∀ divisor, e.root ≠ .nonConstantDivisor divisor

namespace Admits

variable {β γ δ : Type}

omit [Scalar α] in
theorem ok (b : β) : Admits (.ok b : Outcome α β) := FailsWith.ok b

omit [Scalar α] in
theorem error {e : Error α} (feature : ∀ f, e.root ≠ .unsupported f)
    (divisor : ∀ d, e.root ≠ .nonConstantDivisor d) : Admits (.error e : Outcome α β) :=
  FailsWith.error ⟨feature, divisor⟩

omit [Scalar α] in
theorem bind_of_ok {o : Outcome α β} {next : β → Outcome α γ} (first : Admits o)
    (second : ∀ b, o = .ok b → Admits (next b)) : Admits (o >>= next) :=
  FailsWith.bind_of_ok first second

omit [Scalar α] in
theorem bind {o : Outcome α β} {next : β → Outcome α γ} (first : Admits o)
    (second : ∀ b, Admits (next b)) : Admits (o >>= next) :=
  FailsWith.bind first second

omit [Scalar α] in
theorem of_aboutReference {o : Outcome α β} (h : FailsWith Error.AboutReference o) : Admits o := by
  refine h.imp fun e about => ?_
  rw [Error.root_of_layers_eq_zero about.isBare.layers_eq_zero]
  constructor
  · rintro feature rfl
    exact about
  · rintro divisor rfl
    exact about

omit [Scalar α] in
theorem of_aboutScope {o : Outcome α β} (h : FailsWith Error.AboutScope o) : Admits o :=
  of_aboutReference (h.imp fun _ => Error.AboutScope.aboutReference)

omit [Scalar α] in
theorem withContext {o : Outcome α β} (h : Admits o) (context : String) :
    Admits (o.mapError fun e => e.withContext context) := by
  cases o with
  | ok b => exact .ok b
  | error e =>
      obtain ⟨feature, divisor⟩ := h e rfl
      exact .error (by simpa using feature) (by simpa using divisor)

omit [Scalar α] in
theorem foldlM {f : δ → γ → Outcome α δ} {xs : List γ} (h : ∀ d, ∀ x ∈ xs, Admits (f d x))
    (init : δ) : Admits (xs.foldlM f init) :=
  FailsWith.foldlM h init

omit [Scalar α] in
theorem mapM {f : γ → Outcome α β} {xs : List γ} (h : ∀ x ∈ xs, Admits (f x)) :
    Admits (xs.mapM f) :=
  FailsWith.mapM h

end Admits

theorem admits_expand (generators : List (Generator α)) {scope : Scope α} :
    Admits (Generator.expand generators scope) := by
  have loop (g : Generator α) (outer : Scope α) : Admits (g.bindings outer) := by
    have same : g.bindings outer = ((g.domain.valuesIn outer).mapError fun e =>
        e.withContext outer.text).map fun values => values.map (outer.bind g.symbol) := by
      unfold Generator.bindings
      cases g.domain.valuesIn outer <;> rfl
    rw [same]
    have numbers : Admits (g.domain.valuesIn outer) := .of_aboutScope (failsWith_valuesIn g.domain)
    exact (numbers.withContext _).bind fun values => .ok _
  unfold Generator.expand
  split
  · exact .of_aboutScope (.error trivial)
  · refine Admits.foldlM (fun scopes g _ => ?_) _
    unfold Generator.extend
    split
    · exact .of_aboutScope (.error trivial)
    · exact (Admits.mapM fun outer _ => loop g outer).bind fun lists => .ok _

section Evaluation

variable {families : Families α} {vars : Registry (Variable α)}

theorem Expr.classification_ne_nonlinear {e : Expr α} (linear : e.containsNonlinear = false) :
    e.classification ≠ .nonlinear := by
  unfold containsNonlinear at linear
  rw [Bool.or_eq_false_iff] at linear
  exact Classification.ne_nonlinear_of_isLinear (by simpa using linear.1)

/-- A quotient without nonlinear parts has a constant divisor. -/
theorem Expr.divisor_constant {a b : Expr α} (linear : (Expr.div a b).containsNonlinear = false) :
    b.classification = .constant := by
  by_contra other
  refine classification_ne_nonlinear linear ?_
  unfold classification Classification.div
  exact if_neg (by simpa [Classification.isConstant] using other)

/-- The shape of an expression without nonlinear parts describes what the expression evaluates
to. -/
theorem Expr.describes_evaluate (registered : ∀ f ∈ families.values, f.Registered vars)
    {e : Expr α} (linear : e.containsNonlinear = false) {scope : Scope α} {p : Polynomial α}
    (h : e.evaluate families scope = .ok p) : e.classification.Describes p := by
  rw [Expr.evaluate_eq_ok_iff] at h
  induction e using Expr.operandInduction generalizing scope p with
  | leaf e leaf =>
      cases e with
      | const c =>
          obtain rfl := h
          exact Polynomial.isConstant_iff.mpr (Polynomial.degree_constant c).le
      | poly q =>
          obtain rfl : p = q := h
          exact p.describes_classification
      | var family indices =>
          obtain ⟨q, resolved, same⟩ := h
          obtain rfl : p = q := same
          exact Families.describes_resolve registered resolved
      | param name indices | symbol name =>
          obtain ⟨c, -, rfl⟩ := h
          exact Polynomial.isConstant_iff.mpr (Polynomial.degree_constant c).le
      | _ => cases leaf
  | sum body generators ih =>
      obtain ⟨scopes, summands, -, denoted, rfl⟩ := h
      have inner : body.containsNonlinear = false := by simp_all [containsNonlinear]
      refine Classification.Describes.sum (fun q member => ?_) (classification_ne_nonlinear inner)
      obtain ⟨s, -, denoted⟩ := denoted.exists_left member
      exact ih inner denoted
  | add a b iha ihb =>
      obtain ⟨q, r, hq, hr, rfl⟩ := h
      have parts : a.containsNonlinear = false ∧ b.containsNonlinear = false := by
        simp_all [containsNonlinear]
      exact (iha parts.1 hq).add (ihb parts.2 hr) fun n => Polynomial.degree_add_le
  | sub a b iha ihb =>
      obtain ⟨q, r, hq, hr, rfl⟩ := h
      have parts : a.containsNonlinear = false ∧ b.containsNonlinear = false := by
        simp_all [containsNonlinear]
      exact (iha parts.1 hq).add (ihb parts.2 hr) fun n => Polynomial.degree_subtract_le
  | mul a b iha ihb =>
      obtain ⟨q, r, hq, hr, rfl⟩ := h
      have parts : a.containsNonlinear = false ∧ b.containsNonlinear = false := by
        simp_all [containsNonlinear]
      exact (iha parts.1 hq).mul (ihb parts.2 hr)
  | div a b iha ihb =>
      obtain ⟨q, r, hq, hr, quotient⟩ := h
      have parts : a.containsNonlinear = false ∧ b.containsNonlinear = false := by
        simp_all [containsNonlinear]
      exact (iha parts.1 hq).div quotient
  | neg a ih =>
      obtain ⟨q, hq, rfl⟩ := h
      have part : a.containsNonlinear = false := by simp_all [containsNonlinear]
      exact (ih part hq).widen fun n => Polynomial.degree_negate_le
  | construct e construct ih =>
      cases (Expr.containsNonlinear_construct construct).symm.trans linear

/-- An expression without nonlinear parts is never refused. -/
theorem Expr.admits_evaluate (registered : ∀ f ∈ families.values, f.Registered vars)
    {e : Expr α} (linear : e.containsNonlinear = false) (scope : Scope α) :
    Admits (e.evaluate families scope) := by
  induction e using Expr.operandInduction generalizing scope with
  | leaf e leaf => exact .of_aboutReference (failsWith_leaf families leaf scope)
  | sum body generators ih =>
      have inner : body.containsNonlinear = false := by simp_all [containsNonlinear]
      rw [Expr.evaluate]
      refine (admits_expand generators).bind fun scopes => Admits.foldlM (fun total s _ => ?_) _
      exact ((ih inner s).withContext _).bind fun summand => .ok _
  | add a b iha ihb | sub a b iha ihb | mul a b iha ihb =>
      have parts : a.containsNonlinear = false ∧ b.containsNonlinear = false := by
        simp_all [containsNonlinear]
      rw [Expr.evaluate]
      exact (iha parts.1 scope).bind fun q => (ihb parts.2 scope).bind fun r => .ok _
  | div a b iha ihb =>
      have parts : a.containsNonlinear = false ∧ b.containsNonlinear = false := by
        simp_all [containsNonlinear]
      have divisor : b.classification = .constant := divisor_constant linear
      rw [Expr.evaluate]
      refine (iha parts.1 scope).bind fun q => (ihb parts.2 scope).bind_of_ok fun r hr => ?_
      -- The divisor is a number, so the quotient can only fail for being one by zero.
      have described := describes_evaluate registered parts.2 hr
      rw [divisor] at described
      have isConstant : r.isConstant = true := described
      unfold Polynomial.divide Polynomial.constantValue?
      rw [if_pos isConstant]
      dsimp only
      split
      · exact .of_aboutScope (.error trivial)
      · exact .ok _
  | neg a ih =>
      have part : a.containsNonlinear = false := by simp_all [containsNonlinear]
      rw [Expr.evaluate]
      exact (ih part scope).bind fun q => .ok _
  | construct e construct ih =>
      cases (Expr.containsNonlinear_construct construct).symm.trans linear

end Evaluation

section Soundness

variable [Naming α] {m : Model α} {e : Expr α} {p : Polynomial α}

/-- On a reachable model, an expression without nonlinear parts is never refused as one that cannot
be evaluated directly. The polynomial that it evaluates to has at most the first degree; it is a
number if the shape says so, and a single variable if the shape says that. -/
theorem evaluate_of_linear (reachable : m.Reachable) (linear : e.containsNonlinear = false)
    (scope : Scope α) :
    Admits (e.evaluate m.families scope) ∧
    ∀ p, e.evaluate m.families scope = .ok p →
      p.degree ≤ 1 ∧
      (e.classification = .constant → p.isConstant = true) ∧
      (e.classification = .variableReference → ∃ x, p.IsVariable x) := by
  have members := reachable.consistent.members
  refine ⟨e.admits_evaluate members linear scope, fun p evaluated => ?_⟩
  have described := e.describes_evaluate members linear evaluated
  refine ⟨described.degree_le_one (e.classification_ne_nonlinear linear), fun shape => ?_,
    fun shape => ?_⟩
  · rwa [shape] at described
  · rwa [shape] at described

/-- A weighted sum over a family, with a member taken off and a number in front. -/
theorem weighted_sum_linear :
    let i : Generator Float := .of "i" (.range (.const 1) (.symbol "n"))
    let data : Data Float := Data.empty.withScalar "n" 3
    let m : Model Float := .build .minimize .standard [.createFamily "x" [i] .binary data]
    let x (j : IndexExpr Float) : Expr Float := .var "x" [j]
    let e : Expr Float := .sub
      (.add (.const 5) (.sum (.mul (.symbol "i") (x (.symbol "i"))) [i]))
      (.div (x (.literal 2)) (.symbol "n"))
    e.containsNonlinear = false ∧
    ∃ p, e.evaluate m.families (.ofData data) = .ok p ∧ p.toList.length = 4 ∧ p.degree ≤ 1 := by
  intro i data m x e
  have reachable : m.Reachable := Model.reachable_build _ _ _
  have linear : e.containsNonlinear = false := by decide +kernel
  have length : (e.evaluate m.families (.ofData data)).toOption.map (·.toList.length) = some 4 := by
    decide +kernel
  obtain ⟨p, evaluated, length⟩ : ∃ p, e.evaluate m.families (.ofData data) = .ok p ∧
      p.toList.length = 4 := by
    rcases evaluated : e.evaluate m.families (.ofData data) with err | p
    · rw [evaluated] at length
      cases length
    · rw [evaluated] at length
      exact ⟨p, rfl, Option.some.inj length⟩
  exact ⟨linear, p, evaluated, length,
    ((evaluate_of_linear reachable linear (.ofData data)).2 p evaluated).1⟩

end Soundness
end MipModel
