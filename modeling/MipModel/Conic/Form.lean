import MipModel.Conic.Insertion
import MipModel.Lp.Document

/-!
# Conic form

A continuous model as a quadratic program over cones: minimize `x P x / 2 + q x` subject to
`A x + s = b`, where the slacks `s` of the first rows are zero and those of the others are not
negative. Every registered variable has a column, in order of registration.

Equality constraints come first; the other constraints follow, turned so that they bound from above,
and after them the bounds of the variables. The matrix `P` is symmetric and given by its upper
triangle. A maximum is sought as the minimum of the negated objective.
-/

namespace MipModel.Conic

/-- A row of coefficients by column, with its right side. -/
structure Row (α : Type) where
  coefficients : List (Nat × α)
  rhs : α
  deriving DecidableEq, Repr

structure Form (α : Type) where
  p : SparseMatrix α
  q : List α
  a : SparseMatrix α
  b : List α
  /-- The number of rows whose slack is zero. -/
  zeroRows : Nat
  /-- The number of rows whose slack is not negative. -/
  nonnegativeRows : Nat
  /-- The variables by column. -/
  columns : List String
  deriving DecidableEq, Repr

variable {α : Type}

def columnOf (columns : List String) (name : String) : Outcome α Nat :=
  match columns.idxOf? name with
  | some j => .ok j
  | none => .error (.undefinedVariable name)

theorem getElem?_of_columnOf {columns : List String} {name : String} {j : Nat}
    (h : columnOf (α := α) columns name = .ok j) : columns[j]? = some name := by
  cases found : columns.idxOf? name with
  | none =>
      rw [columnOf, found] at h
      cases h
  | some i =>
      rw [columnOf, found] at h
      cases h
      obtain ⟨inside, here, -⟩ := List.idxOf?_eq_some_iff.mp found
      rw [List.getElem?_eq_getElem inside, here]

/-- Refuse a model with a variable that is not continuous. -/
def checkContinuous (vars : List (Variable α)) : Outcome α Unit :=
  match vars.find? fun v => v.kind ≠ .continuous with
  | some v => .error (.unsupported (v.kind.text ++ " variable " ++ v.name ++
      " needs a MILP solver; write the model with write_lp"))
  | none => .ok ()

def linearEntries (columns : List String) (p : Polynomial α) : Outcome α (List (Nat × α)) :=
  p.linearTerms.mapM fun t => return (← columnOf columns t.1, t.2)

variable [Scalar α]

def coefficientOf (entries : List (Nat × α)) (j : Nat) : α :=
  (entries.filter fun e => e.1 = j).foldl (fun sum e => sum + e.2) 0

/-- The place of a quadratic term in the upper triangle. A square counts twice, since the form
halves it; a mixed term stands for itself and its transpose. -/
def quadraticEntry (columns : List String) (t : String × String × α) : Outcome α (Triplet α) := do
  let i ← columnOf columns t.1
  let j ← columnOf columns t.2.1
  return ⟨min i j, max i j, if i = j then Scalar.ofInt 2 * t.2.2 else t.2.2⟩

def minimand (m : Model α) : Polynomial α :=
  match m.direction with
  | .minimize => m.objective
  | .maximize => m.objective.negate

def Row.negate (r : Row α) : Row α :=
  ⟨r.coefficients.map fun e => (e.1, -e.2), -r.rhs⟩

/-- The row of a constraint, turned so that it bounds from above. -/
def constraintRow (columns : List String) (id : String) (c : Constraint α) :
    Outcome α (Comparison × Row α) := do
  if c.degree > 1 then
    throw (.unsupported ("constraint " ++ id ++
      " is quadratic; the continuous backend accepts linear constraints only"))
  let row : Row α := ⟨← linearEntries columns c.lhs, c.rhs⟩
  match c.comparison.relaxed with
  | .ge => return (.le, row.negate)
  | relation => return (relation, row)

/-- The rows of the bounds of the variable in a column. -/
def boundRows (v : Variable α) (j : Nat) : List (Row α) :=
  (v.lower.map fun lower => ⟨[(j, -1)], -lower⟩).toList ++
    (v.upper.map fun upper => ⟨[(j, 1)], upper⟩).toList

variable [Compression α]

def rowMatrix (width : Nat) (rows : List (Row α)) : SparseMatrix α :=
  .ofTriplets rows.length width
    (rows.zipIdx.flatMap fun r => r.1.coefficients.map fun e => ⟨r.2, e.1, e.2⟩)

def Form.ofModel (m : Model α) : Outcome α (Form α) := do
  let vars := m.vars.values
  checkContinuous vars
  let columns := vars.map Variable.name
  let objective := minimand m
  Lp.limitDegree "objective" objective.degree
  let linear ← linearEntries columns objective
  let quadratic ← objective.quadraticTerms.mapM (quadraticEntry columns)
  let rows ← m.constraints.entries.mapM fun e => constraintRow columns e.1 e.2
  let zero := (rows.filter fun r => r.1 = .eq).map Prod.snd
  let nonnegative := (rows.filter fun r => r.1 ≠ .eq).map Prod.snd ++
    vars.zipIdx.flatMap fun v => boundRows v.1 v.2
  return {
    p := .ofTriplets columns.length columns.length quadratic
    q := (List.range columns.length).map (coefficientOf linear)
    a := rowMatrix columns.length (zero ++ nonnegative)
    b := (zero ++ nonnegative).map Row.rhs
    zeroRows := zero.length
    nonnegativeRows := nonnegative.length
    columns := columns }

end MipModel.Conic
