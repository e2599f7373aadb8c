import MipModel.Linearization.Naming
import MipModel.Proofs.Growth
import MipModel.Proofs.Reachability
import MipModel.Proofs.Subexpressions

/-!
# Plain expressions

Linearization and direct evaluation are two recursions over the same expressions. Where none of the
constructs beyond arithmetic is met they agree: the walk that would install gadgets has the outcome
of the evaluation, be it a polynomial or an error with its bindings, and leaves the model as it was
(`linearize_eq_evaluate`). So it makes no difference to a plain expression whether it counts as
nonlinear, as products of variables do, and takes the atomic step, or is evaluated at once.

A step that changes nothing is followed by what is to follow from the same model. Hence one model is
enough throughout, and one rule for each way of composing steps (`Build.Yields`).
-/

namespace MipModel

namespace Build

variable {α β γ δ : Type} {m : Model α}

/-- From a model, a step has an outcome and leaves the model as it is. -/
def Yields (m : Model α) (step : Build α β) (o : Outcome α β) : Prop := step.runOn m = (o, m)

namespace Yields

theorem pure (b : β) : Yields m (Pure.pure b) (Pure.pure b) := rfl

theorem liftM (o : Outcome α β) : Yields m (MonadLiftT.monadLift o) o := rfl

theorem bind {step : Build α β} {o : Outcome α β} {next : β → Build α γ}
    {rest : β → Outcome α γ} (first : Yields m step o)
    (second : ∀ b, o = .ok b → Yields m (next b) (rest b)) :
    Yields m (step >>= next) (o >>= rest) := by
  show runOn (step >>= next) m = _
  rw [runOn_bind, show runOn step m = (o, m) from first]
  cases o with
  | error e => rfl
  | ok b => exact second b rfl

theorem mapError {step : Build α β} {o : Outcome α β} (h : Yields m step o)
    (f : Error α → Error α) : Yields m (Build.mapError step f) (o.mapError f) := by
  show runOn (Build.mapError step f) m = _
  rw [runOn_mapError, show runOn step m = (o, m) from h]
  cases o with
  | error e => rfl
  | ok b => rfl

/-- There is nothing to undo. -/
theorem atomically {step : Build α β} {o : Outcome α β} (h : Yields m step o) :
    Yields m (Build.atomically step) o := by
  show runOn (Build.atomically step) m = _
  rw [runOn_atomically, show runOn step m = (o, m) from h]
  cases o with
  | error e => exact congrArg (Prod.mk _) (Model.rollback_of_grows (refl m))
  | ok b => rfl

theorem foldlM {f : δ → γ → Build α δ} {g : δ → γ → Outcome α δ} {xs : List γ}
    (each : ∀ x ∈ xs, ∀ d, Yields m (f d x) (g d x)) (init : δ) :
    Yields m (xs.foldlM f init) (xs.foldlM g init) := by
  induction xs generalizing init with
  | nil => exact .pure init
  | cons x xs ih =>
      rw [List.foldlM_cons, List.foldlM_cons]
      exact (each x List.mem_cons_self init).bind fun d _ =>
        ih (fun y later => each y (List.mem_cons_of_mem x later)) d

theorem mapM {f : γ → Build α β} {g : γ → Outcome α β} {xs : List γ}
    (each : ∀ x ∈ xs, Yields m (f x) (g x)) : Yields m (xs.mapM f) (xs.mapM g) := by
  induction xs with
  | nil => exact .pure []
  | cons x xs ih =>
      rw [List.mapM_cons, List.mapM_cons]
      exact (each x List.mem_cons_self).bind fun b _ =>
        (ih fun y later => each y (List.mem_cons_of_mem x later)).bind fun bs _ => .pure (b :: bs)

end Yields

end Build

namespace Expr

variable {α : Type} [Scalar α] {e o : Expr α} {scope inner : Scope α}

/-- Evaluating the expression meets no construct beyond arithmetic. -/
def Plain (e : Expr α) (scope : Scope α) : Prop :=
  ∀ part inner, e.Occurs scope part inner → part.isConstruct = false

/-- It is enough that no construct is written in the expression. -/
theorem plain_of_every (h : e.Every (·.isConstruct = false)) (scope : Scope α) : e.Plain scope :=
  fun _ _ occurs => (h.of_occurs occurs).self

theorem Plain.operand (plain : e.Plain scope) (member : o ∈ e.operands) : o.Plain scope :=
  fun part inner occurs => plain part inner (.trans (.operand .root member) occurs)

theorem Plain.summand {body : Expr α} {generators : List (Generator α)} {scopes : List (Scope α)}
    (plain : (Expr.sum body generators).Plain scope)
    (expanded : Generator.expand generators scope = .ok scopes) (member : inner ∈ scopes) :
    body.Plain inner :=
  fun part deep occurs => plain part deep (.trans (.body .root expanded member) occurs)

end Expr

open Build

variable {α : Type} [Scalar α] [Naming α]

/-- The walk through a plain expression yields the value of the expression. -/
theorem Build.Yields.linearizeExpr (m : Model α) (s : Settings α) {e : Expr α} {scope : Scope α}
    (plain : e.Plain scope) : Yields m (e.linearize s scope) (e.evaluate m.families scope) := by
  induction e using Expr.operandInduction generalizing scope with
  | leaf e leaf => cases e <;> first | rfl | cases leaf
  | sum body generators ih =>
      refine (Yields.liftM (Generator.expand generators scope)).bind fun scopes expanded => ?_
      refine .foldlM (fun inner member total => ?_) Polynomial.zero
      exact ((ih (plain.summand expanded member)).mapError _).bind fun summand _ => .pure _
  | add a b iha ihb | sub a b iha ihb | mul a b iha ihb =>
      have left := iha (plain.operand (by simp [Expr.operands]))
      have right := ihb (plain.operand (by simp [Expr.operands]))
      exact left.bind fun p _ => right.bind fun q _ => .pure _
  | div a b iha ihb =>
      have left := iha (plain.operand (by simp [Expr.operands]))
      have right := ihb (plain.operand (by simp [Expr.operands]))
      exact left.bind fun p _ => right.bind fun q _ => .liftM (p.divide q)
  | neg a ih =>
      have operand := ih (plain.operand (by simp [Expr.operands]))
      exact operand.bind fun p _ => .pure _
  | construct e construct _ =>
      rw [plain e scope .root] at construct
      cases construct

/-- Deciding whether a walk is needed makes no difference. -/
theorem Build.Yields.linearize (m : Model α) (s : Settings α) {e : Expr α} {scope : Scope α}
    (plain : e.Plain scope) :
    Build.Yields m (Model.linearize s e scope) (e.evaluate m.families scope) := by
  obtain ⟨-, walked⟩ | ⟨-, evaluated⟩ := Model.linearize_cases s e scope
  · rw [walked]
    exact (Yields.linearizeExpr m s plain).atomically
  · rw [evaluated]
    rfl

/-- Where no construct beyond arithmetic is met, linearizing is evaluating: the outcome is the same
polynomial or the same error, bindings included, and the model does not change. This holds of the
step that decides whether a walk is needed, and of the walk itself. -/
theorem linearize_eq_evaluate (m : Model α) (s : Settings α) (e : Expr α) (scope : Scope α)
    (plain : e.Plain scope) :
    (Model.linearize s e scope).runOn m = (e.evaluate m.families scope, m) ∧
      (e.linearize s scope).runOn m = (e.evaluate m.families scope, m) :=
  ⟨Yields.linearize m s plain, Yields.linearizeExpr m s plain⟩

/-- A sum of squares and a sum of squares divided by a number that is zero for the second of them.
Both count as nonlinear, so both are walked through, and the second one fails under bindings. -/
theorem squares_evaluated :
    let x : Expr Float := .var "x" [.symbol "i"]
    let domain : List (Generator Float) := [.of "i" (.values [1, 2, 3])]
    let squares : Expr Float := .sum (.mul x x) domain
    let quotients : Expr Float := .sum (.div (.mul x x) (.sub (.symbol "i") (.const 2))) domain
    let m : Model Float := .build .minimize .standard [.createFamily "x" domain .free .empty]
    squares.containsNonlinear = true ∧ quotients.containsNonlinear = true ∧
      squares.Plain .empty ∧ quotients.Plain .empty ∧
      (∃ p, p.degree = 2 ∧ (Model.linearize .standard squares .empty).runOn m = (.ok p, m)) ∧
      (Model.linearize .standard quotients .empty).runOn m =
        (.error (.inContext "i = 2 in x(i) * x(i) / (i - 2)" .divisionByZero), m) := by
  intro x domain squares quotients m
  have plain : squares.Plain .empty :=
    Expr.plain_of_every (by simp [squares, x, Expr.Every, Expr.isConstruct]) .empty
  have plain' : quotients.Plain .empty :=
    Expr.plain_of_every (by simp [quotients, x, Expr.Every, Expr.isConstruct]) .empty
  have value : (squares.evaluate m.families .empty).map Polynomial.degree = .ok 2 := by
    decide +kernel
  have failure : quotients.evaluate m.families .empty =
      .error (.inContext "i = 2 in x(i) * x(i) / (i - 2)" .divisionByZero) := by decide +kernel
  refine ⟨by decide +kernel, by decide +kernel, plain, plain', ?_, ?_⟩
  · have same := (linearize_eq_evaluate m .standard squares .empty plain).1
    cases evaluated : squares.evaluate m.families .empty with
    | error e =>
        rw [evaluated] at value
        cases value
    | ok p =>
        rw [evaluated] at value same
        exact ⟨p, Except.ok.inj value, same⟩
  · rw [← failure]
    exact (linearize_eq_evaluate m .standard quotients .empty plain').1

end MipModel
