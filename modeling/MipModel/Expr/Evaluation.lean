import MipModel.Expr.Expansion
import MipModel.Family.Basic

/-!
# Direct evaluation

An expression whose constructs are all arithmetic denotes a polynomial. Products of variables stay
as terms of higher degree. The other constructs need variables of their own and are refused here.

An error in the body of a sum carries the bindings under which it arose.
-/

namespace MipModel

variable {α : Type} [Scalar α]

namespace Families

/-- The polynomial of a reference: the member at a tuple, or the sum of the members that fit. -/
def resolve (families : Families α) (name : String) (indices : List (IndexExpr α))
    (scope : Scope α) : Outcome α (Polynomial α) := do
  let family ← families.lookup name
  let pattern ← IndexExpr.resolveAll scope indices
  if pattern.hasWildcard then return family.sumFitting pattern
  match pattern.index? with
  | some index => family.lookup index
  | none => throw (.indexNotFound name pattern.text)

/-- The members that a reference selects, in order. -/
def resolveMembers (families : Families α) (name : String) (indices : List (IndexExpr α))
    (scope : Scope α) : Outcome α (List (Polynomial α)) := do
  let family ← families.lookup name
  let pattern ← IndexExpr.resolveAll scope indices
  return (family.fitting pattern).map Prod.snd

end Families

namespace Expr

/-- The bindings of a summand and the summand itself, in writing. -/
def summandText (body : Expr α) (scope : Scope α) : String :=
  scope.text ++ " in " ++ body.text

def evaluate (families : Families α) : Expr α → Scope α → Outcome α (Polynomial α)
  | .const c, _ => .ok (.constant c)
  | .poly p, _ => .ok p
  | .var family indices, scope => families.resolve family indices scope
  | .param name indices, scope => do
    return .constant (← scope.parameter name (← IndexExpr.resolveAll scope indices))
  | .symbol name, scope => do return .constant (← scope.number name)
  | .sum body generators, scope => do
    (← Generator.expand generators scope).foldlM (fun total inner => do
      let summand ← (body.evaluate families inner).mapError fun e =>
        e.withContext (body.summandText inner)
      return total.add summand) Polynomial.zero
  | .add a b, scope => do return (← a.evaluate families scope).add (← b.evaluate families scope)
  | .sub a b, scope => do
    return (← a.evaluate families scope).subtract (← b.evaluate families scope)
  | .mul a b, scope => do
    return (← a.evaluate families scope).multiply (← b.evaluate families scope)
  | .div a b, scope => do (← a.evaluate families scope).divide (← b.evaluate families scope)
  | .neg a, scope => do return (← a.evaluate families scope).negate
  | e, _ => .error (.unsupported (e.text ++ " requires linearization"))

end Expr
end MipModel
