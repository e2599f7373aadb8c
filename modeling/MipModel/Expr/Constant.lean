import MipModel.Expr.Text
import MipModel.Scope.Basic

/-!
# Constant expressions

Numbers that depend on the scope alone: bounds of ranges and computed indices. Variables, sums and
the constructs beyond arithmetic are not allowed here. In a quotient the divisor is evaluated
before the dividend.

Index components are resolved along with them: a symbol without a value becomes a component that
fits no index, and a computed component must be an integer of 64 bits.
-/

namespace MipModel

variable {α : Type} [Scalar α]

/-- The number that a symbol stands for: a binding, or else a number from the data. -/
def Scope.number (scope : Scope α) (symbol : String) : Outcome α α :=
  match scope.lookup? symbol with
  | some n => .ok (Scalar.ofInt n)
  | none =>
    match scope.data.scalar? symbol with
    | some value => .ok value
    | none => .error (.unboundSymbol symbol)

def Scope.parameter (scope : Scope α) (name : String) (pattern : Pattern) : Outcome α α :=
  match pattern.index? with
  | some index => scope.data.param name index
  | none => .error (.unknownParameter (name ++ pattern.text))

/-- The integer that a number stands for as an index, if it is one of 64 bits. -/
def Scalar.index? (value : α) : Option Int :=
  (Scalar.integer? value).filter Index.inRange

/-- The error for an expression that is not allowed where a number is needed. -/
def Expr.notConstant (e : Expr α) : Error α :=
  .invalidGenerator (e.text ++ " is not a constant expression")

mutual

def IndexExpr.resolve (scope : Scope α) : IndexExpr α → Outcome α Pattern.Component
  | .literal n => .ok (.value n)
  | .wildcard => .ok .wildcard
  | .symbol name =>
    match scope.lookup? name with
    | some n => .ok (.value n)
    | none => .ok (.unbound name)
  | .computed e => do
    match Scalar.index? (← e.constantIn scope) with
    | some n => return .value n
    | none => throw (.nonIntegralIndex e.text)

def IndexExpr.resolveAll (scope : Scope α) : List (IndexExpr α) → Outcome α Pattern
  | [] => .ok []
  | i :: rest => do return (← i.resolve scope) :: (← IndexExpr.resolveAll scope rest)

def Expr.constantIn (scope : Scope α) : Expr α → Outcome α α
  | .const c => .ok c
  | .symbol name => scope.number name
  | .param name indices => do scope.parameter name (← IndexExpr.resolveAll scope indices)
  | .poly p =>
    match p.constantValue? with
    | some c => .ok c
    | none => .error (Expr.notConstant (.poly p))
  | .add a b => do return (← a.constantIn scope) + (← b.constantIn scope)
  | .sub a b => do return (← a.constantIn scope) - (← b.constantIn scope)
  | .mul a b => do return (← a.constantIn scope) * (← b.constantIn scope)
  | .div a b => do
    let divisor ← b.constantIn scope
    if divisor == 0 then throw .divisionByZero
    return (← a.constantIn scope) / divisor
  | .neg a => do return -(← a.constantIn scope)
  | e => .error e.notConstant

end

end MipModel
