import MipModel.Polynomial.Basic

/-!
# Solutions

What a solver reports back about a model: a status and, if it found a point, the value of the
objective there and the values of the variables.
-/

namespace MipModel

inductive Solution.Status where
  | optimal
  | infeasible
  | unbounded
  | iterationLimit
  | numericalError
  | unknown
  deriving DecidableEq, Repr

structure Solution (α : Type) where
  status : Solution.Status
  objective : Option α
  values : Assignment α
  /-- The time taken, in seconds. -/
  solveTime : α
  iterations : Nat

namespace Solution

variable {α : Type} [Scalar α]

def unsolved (status : Solution.Status) : Solution α := ⟨status, none, fun _ => none, 0, 0⟩

def isOptimal (s : Solution α) : Bool := s.status == .optimal

def value? (s : Solution α) (name : String) : Option α := s.values name

/-- The value of a polynomial at the point that was found. -/
def evaluate (s : Solution α) (p : Polynomial α) : Outcome α α := p.evaluate s.values

end Solution
end MipModel
