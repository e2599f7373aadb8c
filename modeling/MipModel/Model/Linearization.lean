import MipModel.Expr.Classification
import MipModel.Expr.Evaluation
import MipModel.Linearization.Gadget
import MipModel.Model.Registration

/-!
# Linearization

An expression of any kind is turned into a polynomial from the inside out: operands first, then the
construct itself, whose gadget is installed in the model. A construct with an auxiliary already is
not encoded again.

An expression without nonlinear parts is evaluated directly. Otherwise the step is atomic: when a
part of the expression fails, nothing of it remains in the model.
-/

namespace MipModel

variable {α : Type} [Scalar α]

namespace Model

def memoize (name : String) (p : Polynomial α) : Build α Unit :=
  modify fun m => { m with memo := m.memo.insert name p }

/-- The options of an auxiliary of a given kind. -/
def auxiliaryOptions (kind : Variable.Kind) : Variable.Options α :=
  Variable.Options.free.ofKind kind

/-- Encode a gadget under a name: register its variables, add its rows and record it. -/
def encode (s : Settings α) (g : Gadget (Polynomial α) α) (name : String) :
    Build α (Polynomial α) := do
  let m := g.bigM s (← get).vars
  (g.vars name).forM fun v => do let _ ← registerAs v.1 (auxiliaryOptions v.2)
  (g.rows name m).forM fun row => do let _ ← addConstraint (row.withLabel name)
  memoize name (.var name)
  return .var name

/-- The polynomial that stands for a gadget, which is encoded if it is new. -/
def install [Naming α] (s : Settings α) (g : Gadget (Polynomial α) α) : Build α (Polynomial α) := do
  let name := Naming.auxiliary (g.fingerprint s.context)
  match (← get).memo.find? name with
  | some p => return p
  | none => encode s g name

/-- The polynomial of an expression without operands that need encoding. -/
def evaluate (e : Expr α) (scope : Scope α) : Build α (Polynomial α) := do
  e.evaluate (← get).families scope

/-- The members that a pattern selects as the operands of a construct; there must be some. -/
def patternOperands (construct : Construct) (family : String) (indices : List (IndexExpr α))
    (scope : Scope α) : Build α (List (Polynomial α)) := do
  let members ← (← get).families.resolveMembers family indices scope
  if members.isEmpty then
    let pattern ← IndexExpr.resolveAll scope indices
    throw (.emptyPattern construct.name family pattern.text)
  return members

/-- The operands of a construct of any number of them: a single reference to several members stands
for these, and otherwise at least two operands must be listed, which are then computed. -/
def operandsOf (construct : Construct) (operands : List (Expr α)) (scope : Scope α)
    (compute : Build α (List (Polynomial α))) : Build α (List (Polynomial α)) :=
  match operands with
  | [only] =>
    match only.asPattern? with
    | some (family, indices) => patternOperands construct family indices scope
    | none => throw (.tooFewOperands construct.name 2 1)
  | [] => throw (.tooFewOperands construct.name 2 0)
  | _ => compute

end Model

variable [Naming α]

mutual

/-- The polynomial that stands for an expression, with all constructs in it encoded. -/
def Expr.linearize (s : Settings α) : Expr α → Scope α → Build α (Polynomial α)
  | .sum body generators, scope => do
    (← Generator.expand generators scope).foldlM (fun total inner => do
      let summand ← Build.mapError (body.linearize s inner) fun e =>
        e.withContext (body.summandText inner)
      return total.add summand) Polynomial.zero
  | .add a b, scope => do return (← a.linearize s scope).add (← b.linearize s scope)
  | .sub a b, scope => do return (← a.linearize s scope).subtract (← b.linearize s scope)
  | .mul a b, scope => do return (← a.linearize s scope).multiply (← b.linearize s scope)
  | .div a b, scope => do (← a.linearize s scope).divide (← b.linearize s scope)
  | .neg a, scope => do return (← a.linearize s scope).negate
  | .abs a, scope => do Model.install s (.abs (← a.linearize s scope))
  | .max operands, scope => do
    Model.install s (.max (← Model.operandsOf .max operands scope (linearizeAll s operands scope)))
  | .min operands, scope => do
    Model.install s (.min (← Model.operandsOf .min operands scope (linearizeAll s operands scope)))
  | .and operands, scope => do
    Model.install s (.and (← Model.operandsOf .and operands scope (linearizeAll s operands scope)))
  | .or operands, scope => do
    Model.install s (.or (← Model.operandsOf .or operands scope (linearizeAll s operands scope)))
  | .ifThenElse condition yes no, scope => do
    let c ← condition.linearize s scope
    let t ← yes.linearize s scope
    let f ← no.linearize s scope
    Model.install s (.ifThenElse c t f)
  | .piecewise argument shape, scope => do
    let _ ← shape.check
    Model.install s (.piecewise (← argument.linearize s scope) shape)
  | e, scope => Model.evaluate e scope

def Expr.linearizeAll (s : Settings α) : List (Expr α) → Scope α → Build α (List (Polynomial α))
  | [], _ => return []
  | e :: rest, scope => do return (← e.linearize s scope) :: (← linearizeAll s rest scope)

end

namespace Model

def linearize (s : Settings α) (e : Expr α) (scope : Scope α) : Build α (Polynomial α) :=
  if e.containsNonlinear then Build.atomically (e.linearize s scope) else evaluate e scope

/-- An expression is walked through if it looks nonlinear, and evaluated if it does not. -/
theorem linearize_cases (s : Settings α) (e : Expr α) (scope : Scope α) :
    e.containsNonlinear = true ∧ linearize s e scope = Build.atomically (e.linearize s scope) ∨
      e.containsNonlinear = false ∧ linearize s e scope = evaluate e scope := by
  cases linear : e.containsNonlinear with
  | true => exact .inl ⟨rfl, if_pos linear⟩
  | false => exact .inr ⟨rfl, if_neg (by simp [linear])⟩

end Model
end MipModel
