import MipModel.Scalar.Basic

/-!
# Errors

Everything that can go wrong while a model is built, evaluated or handed on. An error says what it
is about; its wording is fixed in one place. An error that arises below a generator carries the
bindings in effect, once: the innermost bindings are attached first and later ones are dropped.
-/

namespace MipModel

inductive Error (α : Type) where
  /-- A variable that is not registered or has no value. -/
  | undefinedVariable (name : String)
  /-- A family that is not declared. -/
  | undefinedFamily (name : String)
  /-- An index tuple, in its written form, without an entry in a family. -/
  | indexNotFound (family index : String)
  /-- A pattern without matches, as the only operand of a construct. -/
  | emptyPattern (construct family pattern : String)
  /-- An index tuple of another length than the family's. -/
  | arityMismatch (family : String) (expected got : Nat)
  /-- Breakpoints, slopes and intercepts that do not describe a function. -/
  | piecewiseShape (reason : String)
  /-- A construct with fewer operands than it needs. -/
  | tooFewOperands (construct : String) (expected got : Nat)
  /-- A divisor, in its written form, that is not a number. -/
  | nonConstantDivisor (divisor : String)
  /-- A divisor equal to zero. -/
  | divisionByZero
  /-- An objective or row above the second degree. -/
  | degreeTooHigh (location : String) (degree : Nat)
  /-- A model without a direction. -/
  | missingDirection
  /-- A word that names no direction. -/
  | invalidDirection (word : String)
  /-- A variable name that is taken. -/
  | duplicateVariable (name : String)
  /-- A family name that is taken. -/
  | duplicateFamily (name : String)
  /-- A symbol without a value. -/
  | unboundSymbol (symbol : String)
  /-- A generator that cannot be expanded. -/
  | invalidGenerator (reason : String)
  /-- A name that the data does not define. -/
  | unknownParameter (name : String)
  /-- A computed index, in its written form, without an integer value. -/
  | nonIntegralIndex (index : String)
  /-- A lower bound above the upper bound. -/
  | invalidBounds (name : String) (lower upper : α)
  /-- A feature that the chosen form of output lacks. -/
  | unsupported (feature : String)
  /-- A failure reported by a solver. -/
  | solver (reason : String)
  /-- An error under generator bindings. -/
  | inContext (context : String) (cause : Error α)
  deriving DecidableEq, Repr

namespace Error

variable {α : Type}

def message [Scalar α] : Error α → String
  | undefinedVariable name => s!"Undefined variable: {name}"
  | undefinedFamily name => s!"Undefined variable family: {name}"
  | indexNotFound family index => s!"Variable {family}{index} not found"
  | emptyPattern construct family pattern =>
    s!"{construct} over {family}{pattern} matched no variables"
  | arityMismatch family expected got =>
    s!"Index arity mismatch for {family}: expected {expected}, got {got}"
  | piecewiseShape reason => s!"Piecewise-linear shape mismatch: {reason}"
  | tooFewOperands construct expected got =>
    s!"{construct} requires at least {expected} operands, got {got}"
  | nonConstantDivisor divisor => s!"Cannot divide by non-constant polynomial {divisor}"
  | divisionByZero => "Division by zero"
  | degreeTooHigh location degree => s!"{location} has degree {degree}; at most 2 is supported"
  | missingDirection => "Problem requires an explicit direction (minimize or maximize)"
  | invalidDirection word => s!"Unknown optimization direction: {word}"
  | duplicateVariable name => s!"Variable {name} is already defined"
  | duplicateFamily name => s!"Variable family {name} is already defined"
  | unboundSymbol symbol => s!"Unbound symbol: {symbol}"
  | invalidGenerator reason => s!"Invalid generator: {reason}"
  | unknownParameter name => s!"Unknown parameter: {name}"
  | nonIntegralIndex index => s!"Index expression {index} is not an integer"
  | invalidBounds name lower upper =>
    "Invalid bounds for " ++ name ++ ": lower " ++ Scalar.text lower ++ " > upper " ++
      Scalar.text upper
  | unsupported feature => s!"Unsupported: {feature}"
  | solver reason => s!"Solver error: {reason}"
  | inContext context cause => cause.message ++ " (with " ++ context ++ ")"

/-- Attach bindings to an error, unless there are none or it carries some already. -/
def withContext (e : Error α) (context : String) : Error α :=
  match e with
  | inContext .. => e
  | _ => if context.isEmpty then e else inContext context e

def root : Error α → Error α
  | inContext _ cause => cause.root
  | e => e

/-- How often bindings are attached to an error. -/
def layers : Error α → Nat
  | inContext _ cause => cause.layers + 1
  | _ => 0

/-- Bindings do not change what an error is about. -/
@[simp] theorem root_withContext (e : Error α) (context : String) :
    (e.withContext context).root = e.root := by
  unfold withContext
  split
  · rfl
  · split <;> rfl

theorem root_of_layers_eq_zero {e : Error α} (h : e.layers = 0) : e.root = e := by
  cases e with
  | inContext context cause => cases h
  | _ => rfl

theorem withContext_of_layers_eq_zero {e : Error α} (h : e.layers = 0) (context : String) :
    e.withContext context = if context.isEmpty then e else inContext context e := by
  cases e with
  | inContext context cause => cases h
  | _ => rfl

end Error

abbrev Outcome (α β : Type) := Except (Error α) β

end MipModel
