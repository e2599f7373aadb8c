import MipModel.Error
import MipModel.Expr.Basic

/-!
# Shapes of piecewise functions

The lists that describe a piecewise linear function must agree in length, be finite, and have
strictly ascending breakpoints. Then the function is a row of pieces.
-/

namespace MipModel

structure Piece (α : Type) where
  start : α
  stop : α
  slope : α
  intercept : α
  deriving DecidableEq, Repr

namespace Piecewise

variable {α : Type}

def size (shape : Piecewise α) : Nat := shape.slopes.length

def numbers (shape : Piecewise α) : List α :=
  shape.breakpoints ++ shape.slopes ++ shape.intercepts

def pieces (shape : Piecewise α) : List (Piece α) :=
  let ends := shape.breakpoints.zip shape.breakpoints.tail
  (ends.zip (shape.slopes.zip shape.intercepts)).map fun p => ⟨p.1.1, p.1.2, p.2.1, p.2.2⟩

variable [Scalar α]

def ascending : List α → Bool
  | a :: b :: rest => !decide (a ≥ b) && ascending (b :: rest)
  | _ => true

/-- Whether the lists describe a function; if not, the first of the reasons. -/
def check (shape : Piecewise α) : Outcome α Unit :=
  let k := shape.size
  if k = 0 then .error (.piecewiseShape "at least one segment is required")
  else if shape.intercepts.length ≠ k then
    .error (.piecewiseShape (toString k ++ " slopes but " ++ toString shape.intercepts.length ++
      " intercepts"))
  else if shape.breakpoints.length ≠ k + 1 then
    .error (.piecewiseShape (toString k ++ " segments need " ++ toString (k + 1) ++
      " breakpoints, got " ++ toString shape.breakpoints.length))
  else if !shape.numbers.all Scalar.isFinite then
    .error (.piecewiseShape "values must be finite")
  else if !ascending shape.breakpoints then
    .error (.piecewiseShape "breakpoints must be strictly ascending")
  else .ok ()

end Piecewise
end MipModel
