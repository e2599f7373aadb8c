/-!
# Scalars

Everything in the library that carries numbers is generic over the scalars it computes with. A
scalar type brings its arithmetic, its comparisons, its connection with the integers, and the
forms in which its members are written. Two types are scalars: binary64 numbers, in which models
are built and written, and exact rationals, in which their meaning is discussed.

Nothing is assumed here about the operations: binary64 arithmetic rounds, and a number that is
not a number differs from itself.
-/

namespace MipModel

/-- Numbers that coefficients, bounds and data are made of. -/
class Scalar (α : Type) extends
    Zero α, One α, Add α, Sub α, Mul α, Div α, Neg α, BEq α, LE α, LT α where
  /-- Comparison is decidable. -/
  decLe : DecidableLE α
  /-- Strict comparison is decidable. -/
  decLt : DecidableLT α
  /-- The scalar nearest to an integer. -/
  ofInt : Int → α
  /-- The integer that a scalar is equal to, if there is one. -/
  integer? : α → Option Int
  /-- Whether a scalar is a number of finite size. -/
  isFinite : α → Bool
  /-- The magnitude of a scalar. -/
  abs : α → α
  /-- The nearest whole number; a half goes away from zero. -/
  round : α → α
  /-- The lesser of two scalars, the second of two equal ones. -/
  least : α → α → α
  /-- The greater of two scalars, the second of two equal ones. -/
  greatest : α → α → α
  /-- The least member of a list. -/
  leastOf : List α → α
  /-- The greatest member of a list. -/
  greatestOf : List α → α
  /-- The form in running text. -/
  text : α → String
  /-- The form that always shows a sign. -/
  signedText : α → String
  /-- The form of a list's member. -/
  listedText : α → String

namespace Scalar

variable {α : Type} [Scalar α]

instance instDecidableLE : DecidableLE α := Scalar.decLe

instance instDecidableLT : DecidableLT α := Scalar.decLt

def listText (values : List α) : String :=
  "[" ++ ", ".intercalate (values.map listedText) ++ "]"

end Scalar
end MipModel
