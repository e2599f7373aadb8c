import MipModel.Polynomial.Basic

/-!
# Constructs and their fingerprints

The seven constructs that are encoded by auxiliary variables. An auxiliary is named after what it
stands for: the construct, the operands, any numbers that belong to it, and the part of the model.
These four together are its fingerprint. Equal fingerprints name the same auxiliary, so a construct
that recurs is encoded once.

How a fingerprint is condensed to a name is left to a naming scheme.
-/

namespace MipModel

/-- The constructs beyond arithmetic. -/
inductive Construct where
  | abs
  | max
  | min
  | and
  | or
  | ifThenElse
  | piecewise
  deriving DecidableEq, Repr

namespace Construct

/-- The word for a construct in names and messages. -/
def name : Construct → String
  | abs => "abs"
  | max => "max"
  | min => "min"
  | and => "and"
  | or => "or"
  | ifThenElse => "ite"
  | piecewise => "pwl"

end Construct

/-- What an auxiliary stands for. -/
structure Fingerprint (α : Type) where
  construct : Construct
  context : String
  operands : List (Polynomial α)
  parameters : List α
  deriving DecidableEq, Repr

/-- A scheme that names auxiliaries by their fingerprints. -/
class Naming (α : Type) where
  /-- The name of the auxiliary with a fingerprint. -/
  auxiliary : Fingerprint α → String

end MipModel
