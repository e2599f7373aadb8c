import MipModel.Expr.Basic

/-!
# References

The names that an expression refers to: the families of its references and the variables of its
embedded polynomials. Bounds of ranges are left out, since they cannot refer to variables.
-/

namespace MipModel

variable {α : Type}

mutual

def IndexExpr.references : IndexExpr α → List String
  | .computed e => e.references
  | _ => []

def IndexExpr.allReferences : List (IndexExpr α) → List String
  | [] => []
  | i :: rest => i.references ++ IndexExpr.allReferences rest

/-- The names that an expression refers to, each as often as it does. -/
def Expr.references : Expr α → List String
  | .const _ | .symbol _ => []
  | .poly p => p.occurrences
  | .var family indices => family :: IndexExpr.allReferences indices
  | .param _ indices => IndexExpr.allReferences indices
  | .sum body _ => body.references
  | .add a b | .sub a b | .mul a b | .div a b => a.references ++ b.references
  | .neg a | .abs a => a.references
  | .max operands | .min operands | .and operands | .or operands => Expr.allReferences operands
  | .ifThenElse condition yes no => condition.references ++ yes.references ++ no.references
  | .piecewise argument _ => argument.references

def Expr.allReferences : List (Expr α) → List String
  | [] => []
  | e :: rest => e.references ++ Expr.allReferences rest

end

/-- The names that an expression refers to, in ascending order and without repetition. -/
def Expr.referencedNames (e : Expr α) : List String :=
  (SortedTable.ofList (e.references.map fun name => (name, ()))).keys

end MipModel
