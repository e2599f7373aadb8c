import MipModel.Error

/-!
# Comparisons

The relations that a constraint can demand. Strict relations are kept apart in writing, but checked
like the others: solvers work with closed sets.
-/

namespace MipModel

inductive Comparison where
  | eq
  | le
  | ge
  | lt
  | gt
  deriving DecidableEq, Repr

namespace Comparison

def symbol : Comparison → String
  | eq => "=="
  | le => "<="
  | ge => ">="
  | lt => "<"
  | gt => ">"

/-- Read the sign of a relation; equality has two. -/
def parse {α : Type} (s : String) : Outcome α Comparison :=
  match s with
  | "==" | "=" => .ok eq
  | "<=" => .ok le
  | ">=" => .ok ge
  | "<" => .ok lt
  | ">" => .ok gt
  | other => .error (.unsupported ("comparison operator " ++ other))

def flip : Comparison → Comparison
  | eq => eq
  | le => ge
  | ge => le
  | lt => gt
  | gt => lt

def relaxed : Comparison → Comparison
  | lt => le
  | gt => ge
  | c => c

/-- Whether two numbers stand in a relation, within a tolerance. -/
def holds {α : Type} [Scalar α] (c : Comparison) (lhs rhs tolerance : α) : Bool :=
  match c with
  | eq => Scalar.abs (lhs - rhs) ≤ tolerance
  | le | lt => lhs ≤ rhs + tolerance
  | ge | gt => lhs ≥ rhs - tolerance

end Comparison
end MipModel
