import MipModel.Constraint.Basic
import MipModel.Family.Basic
import MipModel.Linearization.Settings
import MipModel.Model.Direction
import MipModel.Table.Registry
import MipModel.Variable.Basic

/-!
# Models

A model holds everything that accumulates while it is built: variables, constraints, families, the
objective, and a memo of the auxiliaries that stand for constructs already encoded. Its registries
grow at the end only, and its counters never go backwards, so a name handed out once keeps its
meaning.

The sizes of a model at some time are a checkpoint. Cutting the registries back to these sizes
removes everything that was appended since.
-/

namespace MipModel

structure Model (α : Type) where
  direction : Direction
  objective : Polynomial α
  vars : Registry (Variable α)
  constraints : Registry (Constraint α)
  families : Families α
  /-- The polynomials that stand for constructs encoded so far, by auxiliary name. -/
  memo : Registry (Polynomial α)
  nextVariable : Nat
  nextConstraint : Nat
  settings : Settings α
  deriving DecidableEq, Repr

/-- The sizes that a model had at some time. -/
structure Checkpoint where
  vars : Nat
  constraints : Nat
  memo : Nat
  nextVariable : Nat
  nextConstraint : Nat
  deriving DecidableEq, Repr

namespace Model

variable {α : Type}

def empty (direction : Direction) (settings : Settings α) : Model α where
  direction := direction
  objective := .zero
  vars := ∅
  constraints := ∅
  families := ∅
  memo := ∅
  nextVariable := 0
  nextConstraint := 0
  settings := settings

/-- A new model; its direction must be given. -/
def create (direction : Option Direction) (settings : Settings α) : Outcome α (Model α) :=
  match direction with
  | some d => .ok (empty d settings)
  | none => .error .missingDirection

def checkpoint (m : Model α) : Checkpoint where
  vars := m.vars.size
  constraints := m.constraints.size
  memo := m.memo.size
  nextVariable := m.nextVariable
  nextConstraint := m.nextConstraint

/-- Cut the registries back to earlier sizes. -/
def rollback (m : Model α) (c : Checkpoint) : Model α :=
  { m with
    vars := m.vars.truncate c.vars
    constraints := m.constraints.truncate c.constraints
    memo := m.memo.truncate c.memo
    nextVariable := c.nextVariable
    nextConstraint := c.nextConstraint }

end Model

end MipModel
