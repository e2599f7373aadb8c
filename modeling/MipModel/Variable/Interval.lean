import MipModel.Scalar.Binary64
import MipModel.Variable.Basic

/-!
# Intervals of binary64 variables

Binary64 has infinities, so the bounds of a variable can be given as an interval in every case.
-/

namespace MipModel.Variable

/-- The bounds of a variable; a missing one is infinite. -/
def interval (v : Variable Float) : Float × Float :=
  (v.lower.getD (-Binary64.infinity), v.upper.getD Binary64.infinity)

end MipModel.Variable
