import MipModel.Polynomial.Basic

/-!
# Expressions

The terms in which models are stated. An expression refers to families of variables at index
tuples that are computed from generator symbols; it sums over generators, and besides arithmetic
it has seven constructs that no polynomial expresses. Index components, domains and expressions
contain one another: an index can be computed, and the bounds of a range are expressions.
-/

namespace MipModel

/-- The data of a piecewise linear function: segment number `i` runs from breakpoint `i` to
breakpoint `i + 1` and has the slope and the intercept of number `i`. -/
structure Piecewise (α : Type) where
  breakpoints : List α
  slopes : List α
  intercepts : List α
  deriving DecidableEq, Repr

mutual

inductive IndexExpr (α : Type) where
  /-- An integer. -/
  | literal (n : Int)
  /-- The value of a generator symbol. -/
  | symbol (name : String)
  /-- Every integer; it turns the reference into a sum. -/
  | wildcard
  /-- The value of an expression, which must be an integer. -/
  | computed (e : Expr α)

/-- The values that a generator symbol takes. -/
inductive Domain (α : Type) where
  /-- The listed integers. -/
  | values (members : List Int)
  /-- The integers from a first to a last one. -/
  | range (first last : Expr α)
  /-- A domain that the data defines. -/
  | named (name : String)

/-- A symbol with the domain it ranges over. -/
inductive Generator (α : Type) where
  | of (symbol : String) (domain : Domain α)

inductive Expr (α : Type) where
  /-- A number. -/
  | const (c : α)
  /-- A polynomial, such as a variable at hand. -/
  | poly (p : Polynomial α)
  /-- A member of a family, or the sum of the members that fit a pattern. -/
  | var (family : String) (indices : List (IndexExpr α))
  /-- A number from a table of the data. -/
  | param (name : String) (indices : List (IndexExpr α))
  /-- A symbol as a number: a generator's value or a number from the data. -/
  | symbol (name : String)
  /-- The sum of a body over all combinations of generator values. -/
  | sum (body : Expr α) (generators : List (Generator α))
  | add (a b : Expr α)
  | sub (a b : Expr α)
  | mul (a b : Expr α)
  | div (a b : Expr α)
  | neg (a : Expr α)
  /-- The magnitude of an operand. -/
  | abs (a : Expr α)
  /-- The greatest operand. -/
  | max (operands : List (Expr α))
  /-- The least operand. -/
  | min (operands : List (Expr α))
  /-- One if every operand is one, else zero. -/
  | and (operands : List (Expr α))
  /-- One if some operand is one, else zero. -/
  | or (operands : List (Expr α))
  /-- The second operand if the condition is one, the third if it is zero. -/
  | ifThenElse (condition yes no : Expr α)
  /-- A piecewise linear function of an operand. -/
  | piecewise (argument : Expr α) (shape : Piecewise α)

end

namespace IndexExpr

variable {α : Type}

/-- A component named by a text: an underscore is the wildcard, anything else a symbol. -/
def ofString (s : String) : IndexExpr α := if s = "_" then wildcard else symbol s

def isWildcard : IndexExpr α → Bool
  | wildcard => true
  | _ => false

end IndexExpr

namespace Generator

variable {α : Type}

def symbol : Generator α → String
  | of s _ => s

def domain : Generator α → Domain α
  | of _ d => d

end Generator

namespace Expr

variable {α : Type}

/-- The family and the indices of an expression that is a single reference to several members. -/
def asPattern? : Expr α → Option (String × List (IndexExpr α))
  | var family indices => if indices.any IndexExpr.isWildcard then some (family, indices) else none
  | _ => none

/-- Whether an expression is a number in writing. -/
def isLiteral : Expr α → Bool
  | const _ => true
  | _ => false

end Expr
end MipModel
