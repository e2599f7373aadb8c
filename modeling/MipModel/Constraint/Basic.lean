import MipModel.Constraint.Comparison
import MipModel.Polynomial.Text

/-!
# Constraints

A constraint compares a polynomial without constant term to a number. Every comparison of two
polynomials is brought into that form by moving variables to the left and numbers to the right.
-/

namespace MipModel

/-- A normalized comparison. -/
structure Constraint (α : Type) where
  lhs : Polynomial α
  comparison : Comparison
  rhs : α
  label : Option String
  deriving DecidableEq, Repr

namespace Constraint

variable {α : Type}

def withLabel (c : Constraint α) (label : String) : Constraint α :=
  { c with label := some label }

def degree (c : Constraint α) : Nat := c.lhs.degree

variable [Scalar α]

/-- Compare two polynomials. -/
def compare (lhs : Polynomial α) (comparison : Comparison) (rhs : Polynomial α) : Constraint α :=
  let difference := lhs.subtract rhs
  ⟨difference.withoutConstant, comparison, -difference.constantTerm, none⟩

/-- Whether an assignment satisfies a constraint, within a tolerance. -/
def isSatisfied (c : Constraint α) (values : Assignment α) (tolerance : α) : Outcome α Bool :=
  return c.comparison.holds (← c.lhs.evaluate values) c.rhs tolerance

def text (c : Constraint α) : String :=
  c.lhs.text ++ " " ++ c.comparison.symbol ++ " " ++ Scalar.text c.rhs

end Constraint
end MipModel
