import MipModel.Model.Basic

/-!
# LP documents

The parts of a written model: an objective, rows, bounds, and the lists of integer and binary
variables. The format knows linear and quadratic terms, so nothing above the second degree has a
document. It also demands a term in every sum; an empty one is padded with a zero multiple of the
first variable, which therefore must exist.
-/

namespace MipModel.Lp

inductive Body (α : Type) where
  /-- Terms of degree one, then terms of degree two. -/
  | terms (linear : List (String × α)) (quadratic : List (String × String × α))
  /-- A zero multiple of a variable. -/
  | zero (name : String)
  deriving DecidableEq, Repr

/-- A row: its name, its left side, its relation and its right side. -/
structure Row (α : Type) where
  id : String
  body : Body α
  relation : Comparison
  rhs : α
  deriving DecidableEq, Repr

structure Bound (α : Type) where
  name : String
  lower : Option α
  upper : Option α
  deriving DecidableEq, Repr

structure Document (α : Type) where
  direction : Direction
  objective : Body α
  /-- The constant term of the objective, which the format can only note in a comment. -/
  constant : Option α
  rows : List (Row α)
  bounds : List (Bound α)
  general : List String
  binary : List String
  deriving DecidableEq, Repr

variable {α : Type}

/-- Refuse a degree above two. -/
def limitDegree (location : String) (degree : Nat) : Outcome α Unit :=
  if degree > 2 then .error (.degreeTooHigh location degree) else .ok ()

/-- Refuse a model of a degree above two; the objective is checked first, then every row. -/
def limitDegrees (m : Model α) : Outcome α Unit := do
  limitDegree "objective" m.objective.degree
  m.constraints.entries.forM fun e => limitDegree ("constraint " ++ e.1) e.2.degree

def Body.ofPolynomial (p : Polynomial α) (filler : Option String) : Outcome α (Body α) :=
  match p.linearTerms, p.quadraticTerms, filler with
  | [], [], some name => .ok (.zero name)
  | [], [], none => .error (.unsupported "cannot write an LP model without variables")
  | linear, quadratic, _ => .ok (.terms linear quadratic)

def Row.ofConstraint (filler : Option String) (id : String) (c : Constraint α) :
    Outcome α (Row α) :=
  return ⟨id, ← Body.ofPolynomial c.lhs filler, c.comparison.relaxed, c.rhs⟩

/-- The bounds of the variables that are not binary. -/
def boundsOf (vars : List (Variable α)) : List (Bound α) :=
  (vars.filter fun v => v.kind ≠ .binary).map fun v => ⟨v.name, v.lower, v.upper⟩

def namesOf (kind : Variable.Kind) (vars : List (Variable α)) : List String :=
  (vars.filter fun v => v.kind = kind).map Variable.name

def Document.ofModel [Scalar α] (m : Model α) : Outcome α (Document α) := do
  limitDegrees m
  let vars := m.vars.values
  let filler := vars.head?.map Variable.name
  let constant := m.objective.constantTerm
  let objective ← Body.ofPolynomial m.objective filler
  let rows ← m.constraints.entries.mapM fun e => Row.ofConstraint filler e.1 e.2
  return {
    direction := m.direction
    objective := objective
    constant := if constant == 0 then none else some constant
    rows := rows
    bounds := boundsOf vars
    general := namesOf .integer vars
    binary := namesOf .binary vars }

end MipModel.Lp
