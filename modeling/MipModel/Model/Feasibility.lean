import MipModel.Model.Basic

/-!
# Checking assignments

Whether an assignment of all variables lies in their domains and satisfies all constraints, and
what the objective is worth under it.
-/

namespace MipModel.Model

variable {α : Type} [Scalar α]

def objectiveValue (m : Model α) (values : Assignment α) : Outcome α α :=
  m.objective.evaluate values

/-- Whether every check holds, up to the first that does not or that fails. -/
def allHold {β : Type} (check : β → Outcome α Bool) : List β → Outcome α Bool
  | [] => .ok true
  | b :: rest => do if ← check b then allHold check rest else return false

/-- Whether a variable has a value in its domain, within a tolerance. -/
def checkVariable (values : Assignment α) (tolerance : α) (v : Variable α) : Outcome α Bool :=
  return v.admits (← Polynomial.lookup values v.name) tolerance

/-- Whether an assignment is feasible, within a tolerance. -/
def isFeasible (m : Model α) (values : Assignment α) (tolerance : α) : Outcome α Bool := do
  if ← allHold (checkVariable values tolerance) m.vars.values then
    allHold (fun c => c.isSatisfied values tolerance) m.constraints.values
  else return false

end MipModel.Model
