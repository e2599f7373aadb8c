import MipModel.Expr.Constant

/-!
# Expansion of generators

A list of generators stands for nested loops, the first one outermost. Its expansion is the list
of scopes in which the innermost loop body runs, in order. The domain of a generator is evaluated
under the bindings of the generators before it.
-/

namespace MipModel

variable {α : Type} [Scalar α]

def integersBetween (first last : Int) : List Int :=
  (List.range (last + 1 - first).toNat).map fun (i : Nat) => first + i

namespace Domain

/-- The integer that bounds a range, which must be one of 64 bits. -/
def rangeBound (domain : Domain α) (value : α) : Outcome α Int :=
  match Scalar.integer? value with
  | none => .error (.invalidGenerator ("range bound " ++ Scalar.text value ++ " of " ++
      domain.text ++ " is not an integer"))
  | some n =>
    if Index.inRange n then .ok n
    else .error (.invalidGenerator ("range bound " ++ Scalar.text value ++ " of " ++
      domain.text ++ " is out of range"))

def valuesIn (scope : Scope α) : Domain α → Outcome α (List Int)
  | values members => .ok members
  | named name => scope.data.domain name
  | range first last => do
    let first' ← rangeBound (range first last) (← first.constantIn scope)
    let last' ← rangeBound (range first last) (← last.constantIn scope)
    return integersBetween first' last'

end Domain

namespace Generator

/-- The scopes of one loop inside a given scope. -/
def bindings (g : Generator α) (outer : Scope α) : Outcome α (List (Scope α)) :=
  match g.domain.valuesIn outer with
  | .ok values => .ok (values.map (outer.bind g.symbol))
  | .error e => .error (e.withContext outer.text)

/-- Run one more loop inside every scope so far. -/
def extend (g : Generator α) (scopes : List (Scope α)) : Outcome α (List (Scope α)) :=
  if g.symbol = "" ∨ g.symbol = "_" then
    .error (.invalidGenerator ("cannot bind symbol '" ++ g.symbol ++ "'"))
  else return (← scopes.mapM g.bindings).flatten

/-- The scopes of the innermost loop body. -/
def expand (generators : List (Generator α)) (scope : Scope α) : Outcome α (List (Scope α)) :=
  if generators.isEmpty then
    .error (.invalidGenerator "sum requires at least one generator")
  else generators.foldlM (fun scopes g => g.extend scopes) [scope]

/-- The values that a scope gives to the symbols of generators. -/
def indexIn (generators : List (Generator α)) (scope : Scope α) : Index :=
  generators.filterMap fun g => scope.lookup? g.symbol

end Generator
end MipModel
