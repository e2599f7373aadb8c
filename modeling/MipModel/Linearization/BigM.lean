import MipModel.Linearization.Enclosure
import MipModel.Linearization.Settings
import MipModel.Linearization.Shape

/-!
# Constants that switch rows off

A row is switched off by a constant at least as large as anything it could demand. Where the
operands have enclosures the least such constant is read off them; otherwise, and where derivation
is turned off, the constant of the settings is taken.
-/

namespace MipModel.BigM

variable {α : Type} [Scalar α]

/-- A constant that covers the magnitude of a difference. -/
def forDifference (s : Settings α) (vars : Registry (Variable α)) (difference : Polynomial α) :
    α :=
  if !s.deriveBigM then s.bigM
  else
    match Enclosure.ofPolynomial? vars difference with
    | some range => Scalar.greatest (Scalar.abs range.lower) (Scalar.abs range.upper)
    | none => s.bigM

/-- The values of all segments, each continued over an enclosure of the argument. -/
def segmentValues (shape : Piecewise α) (range : Enclosure α) : List α :=
  (shape.slopes.zip shape.intercepts).flatMap fun p =>
    [p.1 * range.lower + p.2, p.1 * range.upper + p.2]

/-- A constant that covers the distances between any two segments and the distance of the argument
from the domain of any segment, for an argument with an enclosure. -/
def cover (shape : Piecewise α) (lastStart firstEnd : α) (range : Enclosure α) : α :=
  let values := segmentValues shape range
  let gap := Scalar.greatestOf values - Scalar.leastOf values
  let outside := Scalar.greatest (lastStart - range.lower) (range.upper - firstEnd)
  Scalar.greatest (Scalar.greatest gap outside) 0

def lastStart? (shape : Piecewise α) : Option α :=
  if shape.size = 0 then none else shape.breakpoints[shape.size - 1]?

/-- A constant for the encoding of a piecewise function. -/
def forPiecewise (s : Settings α) (vars : Registry (Variable α)) (argument : Polynomial α)
    (shape : Piecewise α) : α :=
  if !s.deriveBigM then s.bigM
  else
    match lastStart? shape, shape.breakpoints[1]?, Enclosure.ofPolynomial? vars argument with
    | some lastStart, some firstEnd, some range => cover shape lastStart firstEnd range
    | _, _, _ => s.bigM

end MipModel.BigM
