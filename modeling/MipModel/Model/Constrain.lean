import MipModel.Model.Linearization

/-!
# Constraints and objectives from expressions

The steps that linearize expressions and add the result to a model. Each part of a model has a
context of its own, so auxiliaries are shared within an objective or a constraint, not between
them. Every step is all or nothing.
-/

namespace MipModel.Model

variable {α : Type} [Scalar α] [Naming α]

def addToObjective (e : Expr α) (scope : Scope α) : Build α (Polynomial α) := do
  let p ← linearize ((← get).settings.tagged "obj") e scope
  increaseObjective p
  return p

/-- The context of a constraint: its label, or else its number. -/
def constraintTag (m : Model α) (label : Option String) : String :=
  match label with
  | some l => Identifier.sanitize l
  | none => Identifier.numbered "c" m.nextConstraint ""

/-- Linearize both sides of a comparison and store the constraint. -/
def constrain (lhs : Expr α) (comparison : Comparison) (rhs : Expr α) (scope : Scope α)
    (label : Option String) : Build α String := do
  let m ← get
  let s := m.settings.tagged (m.constraintTag label)
  Build.atomically do
    let left ← linearize s lhs scope
    let right ← linearize s rhs scope
    addConstraint { Constraint.compare left comparison right with label := label }

/-- The label of one instance of a quantified constraint. -/
def instanceLabel (label : String) (generators : List (Generator α)) (scope : Scope α) : String :=
  Identifier.join (label :: (Generator.indexIn generators scope).map toString)

/-- Store a constraint for every combination of generator values, or none at all. -/
def constrainEach (lhs : Expr α) (comparison : Comparison) (rhs : Expr α)
    (generators : List (Generator α)) (scope : Scope α) (label : String) :
    Build α (List String) := do
  let scopes ← Generator.expand generators scope
  Build.atomically <| scopes.mapM fun inner =>
    Build.mapError
      (constrain lhs comparison rhs inner (some (instanceLabel label generators inner)))
      fun e => e.withContext inner.text

end MipModel.Model
