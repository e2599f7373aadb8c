import MipModel.Expr.Expansion
import MipModel.Model.Build
import MipModel.Text.Identifier

/-!
# Registration

The steps that add variables, families and constraints. Names are made of a counter and a label,
so they are new whatever the label; only auxiliaries are registered under a name of the caller's.

A family is created member by member. When a member's name turns out to be taken, the members
before it stay registered, and the family is not stored.
-/

namespace MipModel.Model

variable {α : Type} [Scalar α]

/-- Register a variable under a name that the caller chooses. -/
def registerAs (name : String) (options : Variable.Options α) : Build α (Polynomial α) := do
  let m ← get
  if m.vars.contains name then throw (.duplicateVariable name)
  let v ← options.define name
  set { m with vars := m.vars.insert name v }
  return .var name

/-- Register a variable under the next number. -/
def registerNext (label : String) (options : Variable.Options α) : Build α (Polynomial α) := do
  let m ← get
  let name := Identifier.numbered "v" m.nextVariable label
  let v ← options.define name
  if m.vars.contains name then throw (.duplicateVariable name)
  set { m with
    nextVariable := m.nextVariable + 1
    vars := m.vars.insert name v }
  return .var name

/-- Store a family in place of one of the same name. -/
def storeFamily (f : Family α) : Build α Unit :=
  modify fun m => { m with families := m.families.insert f.name f }

def requireNewFamily (name : String) : Build α Unit := do
  if (← get).families.contains name then throw (.duplicateFamily name)

/-- Create a variable and store it as a family without indices. -/
def createVariable (label : String) (options : Variable.Options α) : Build α (Polynomial α) := do
  requireNewFamily label
  let p ← registerNext label options
  storeFamily (.ofList label [([], p)])
  return p

/-- The index tuples that generators produce, in order; without generators, the empty tuple. -/
def familyIndices (generators : List (Generator α)) (data : Data α) : Outcome α (List Index) :=
  if generators.isEmpty then .ok [[]]
  else return (← Generator.expand generators (.ofData data)).map (Generator.indexIn generators)

def memberLabel (name : String) (index : Index) : String :=
  Identifier.join (name :: index.map toString)

/-- Create the member at a tuple, unless there is one. -/
def addMember (options : Variable.Options α) (f : Family α) (index : Index) :
    Build α (Family α) := do
  match f.lookup index with
  | .ok _ => return f
  | .error _ => return f.insert index (← registerNext (memberLabel f.name index) options)

/-- Create a family with a variable at every tuple that generators produce. -/
def createFamily (name : String) (generators : List (Generator α)) (options : Variable.Options α)
    (data : Data α) : Build α (Family α) := do
  requireNewFamily name
  let _ ← options.define name
  let f ← (← familyIndices generators data).foldlM (addMember options) (.empty name)
  storeFamily f
  return f

def checkMember (m : Model α) (family : String) (index : Index) (p : Polynomial α) :
    Outcome α Unit :=
  match p.asVariable? with
  | some name => if m.vars.contains name then .ok () else .error (.undefinedVariable name)
  | none => .error (.undefinedVariable (family ++ index.text ++ " = " ++ p.text))

/-- Store a family of registered variables, in place of one of the same name. -/
def defineFamily (f : Family α) : Build α Unit := do
  let m ← get
  f.toList.forM fun member => (m.checkMember f.name member.1 member.2 : Outcome α Unit)
  storeFamily f

/-- Store a constraint under the next number and its label. -/
def addConstraint (c : Constraint α) : Build α String := do
  let m ← get
  let id := Identifier.numbered "c" m.nextConstraint (c.label.getD "")
  set { m with
    nextConstraint := m.nextConstraint + 1
    constraints := m.constraints.insert id c }
  return id

def increaseObjective (p : Polynomial α) : Build α Unit :=
  modify fun m => { m with objective := m.objective.add p }

def decreaseObjective (p : Polynomial α) : Build α Unit :=
  modify fun m => { m with objective := m.objective.subtract p }

end MipModel.Model
