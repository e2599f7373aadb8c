import MipModel.Expr.Basic

/-!
# Classification

What can be said about the shape of an expression without evaluating it. The seven constructs
beyond arithmetic count as nonlinear whatever their operands are; so does a product of two
operands that are not constant, and a quotient by one. An expression without nonlinear parts can
be evaluated directly.
-/

namespace MipModel

inductive Classification where
  /-- No variables. -/
  | constant
  /-- A single variable. -/
  | variableReference
  /-- A linear combination of variables. -/
  | linear
  /-- Anything else. -/
  | nonlinear
  deriving DecidableEq, Repr

namespace Classification

def isLinear (c : Classification) : Bool := c != nonlinear

def isConstant (c : Classification) : Bool := c == constant

/-- The shape of an expression around a single operand. -/
def widen : Classification → Classification
  | variableReference => linear
  | c => c

def add : Classification → Classification → Classification
  | nonlinear, _ | _, nonlinear => nonlinear
  | constant, constant => constant
  | _, _ => linear

def mul : Classification → Classification → Classification
  | nonlinear, _ | _, nonlinear => nonlinear
  | constant, c => c.widen
  | c, constant => c.widen
  | _, _ => nonlinear

def div (dividend divisor : Classification) : Classification :=
  if divisor.isConstant then dividend.widen else nonlinear

def sum (body : Classification) : Classification :=
  if body.isConstant then constant else linear

end Classification

variable {α : Type} [Scalar α]

def Polynomial.classification (p : Polynomial α) : Classification :=
  if p.isConstant then .constant
  else if p.asVariable?.isSome then .variableReference
  else if p.degree ≤ 1 then .linear
  else .nonlinear

namespace Expr

def classification : Expr α → Classification
  | .const _ | .symbol _ | .param .. => .constant
  | .poly p => p.classification
  | .var _ indices => if indices.any IndexExpr.isWildcard then .linear else .variableReference
  | .sum body _ => .sum body.classification
  | .add a b | .sub a b => .add a.classification b.classification
  | .mul a b => .mul a.classification b.classification
  | .div a b => .div a.classification b.classification
  | .neg a => a.classification.widen
  | .abs _ | .max _ | .min _ | .and _ | .or _ | .ifThenElse .. | .piecewise .. => .nonlinear

/-- Whether an expression or some part of it that is evaluated is nonlinear. -/
def containsNonlinear (e : Expr α) : Bool :=
  !e.classification.isLinear ||
  match e with
  | .sum body _ => body.containsNonlinear
  | .add a b | .sub a b | .mul a b | .div a b => a.containsNonlinear || b.containsNonlinear
  | .neg a => a.containsNonlinear
  | _ => false

end Expr
end MipModel
