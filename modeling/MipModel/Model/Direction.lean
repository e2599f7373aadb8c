import MipModel.Error
import MipModel.Text.Blank

/-!
# Directions

Whether an objective is to be made small or large.
-/

namespace MipModel

inductive Direction where
  | minimize
  | maximize
  deriving DecidableEq, Repr

namespace Direction

def text : Direction → String
  | minimize => "minimize"
  | maximize => "maximize"

/-- Read the word for a direction or its abbreviation; case and blank margins do not matter. -/
def parse {α : Type} (s : String) : Outcome α Direction :=
  match String.ofList ((Text.trim s).toList.map Char.toLower) with
  | "minimize" | "min" => .ok minimize
  | "maximize" | "max" => .ok maximize
  | other => .error (.invalidDirection other)

end Direction
end MipModel
