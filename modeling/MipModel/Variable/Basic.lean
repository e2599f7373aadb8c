import MipModel.Error

/-!
# Decision variables

A variable has a domain, given by its kind and its bounds. A binary variable always has both
bounds, within zero and one; options that ask for more are cut down to that.
-/

namespace MipModel

/-- The values that a variable ranges over, bounds apart. -/
inductive Variable.Kind where
  /-- All numbers. -/
  | continuous
  /-- Whole numbers. -/
  | integer
  /-- Zero and one. -/
  | binary
  deriving DecidableEq, Repr

namespace Variable.Kind

def text : Variable.Kind → String
  | continuous => "continuous"
  | integer => "integer"
  | binary => "binary"

end Variable.Kind

structure Variable (α : Type) where
  name : String
  kind : Variable.Kind
  lower : Option α
  upper : Option α
  deriving DecidableEq, Repr

/-- What is asked of a variable that is to be created. -/
structure Variable.Options (α : Type) where
  kind : Variable.Kind
  lower : Option α
  upper : Option α
  deriving DecidableEq, Repr

namespace Variable.Options

variable {α : Type}

def free : Variable.Options α := ⟨.continuous, none, none⟩

def binary : Variable.Options α := { (free : Variable.Options α) with kind := .binary }

def ofKind (o : Variable.Options α) (kind : Variable.Kind) : Variable.Options α :=
  { o with kind := kind }

def atLeast (o : Variable.Options α) (lower : α) : Variable.Options α :=
  { o with lower := some lower }

def atMost (o : Variable.Options α) (upper : α) : Variable.Options α :=
  { o with upper := some upper }

def between (o : Variable.Options α) (lower upper : α) : Variable.Options α :=
  (o.atLeast lower).atMost upper

variable [Scalar α]

def nonnegative (o : Variable.Options α) : Variable.Options α := o.atLeast 0

def lowerBound (o : Variable.Options α) : Option α :=
  match o.kind with
  | .binary => some (Scalar.greatest (o.lower.getD 0) 0)
  | _ => o.lower

def upperBound (o : Variable.Options α) : Option α :=
  match o.kind with
  | .binary => some (Scalar.least (o.upper.getD 1) 1)
  | _ => o.upper

/-- The variable of a name; its bounds must not be crossed. -/
def define (o : Variable.Options α) (name : String) : Outcome α (Variable α) :=
  match o.lowerBound, o.upperBound with
  | some lower, some upper =>
    if lower > upper then .error (.invalidBounds name lower upper)
    else .ok ⟨name, o.kind, some lower, some upper⟩
  | lower, upper => .ok ⟨name, o.kind, lower, upper⟩

end Variable.Options

namespace Variable

variable {α : Type} [Scalar α]

/-- Both bounds, if they are present and of finite size. -/
def finiteBounds? (v : Variable α) : Option (α × α) :=
  match v.lower, v.upper with
  | some lower, some upper =>
    if Scalar.isFinite lower && Scalar.isFinite upper then some (lower, upper) else none
  | _, _ => none

/-- Whether a number is within a tolerance of a whole number. -/
def isWhole (value tolerance : α) : Bool :=
  Scalar.abs (value - Scalar.round value) ≤ tolerance

/-- Whether a value lies in the domain of the variable, within a tolerance. -/
def admits (v : Variable α) (value tolerance : α) : Bool :=
  !(v.lower.any fun lower => value < lower - tolerance) &&
  !(v.upper.any fun upper => value > upper + tolerance) &&
  (v.kind == .continuous || isWhole value tolerance)

end Variable
end MipModel
