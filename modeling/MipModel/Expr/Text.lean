import MipModel.Expr.Basic
import MipModel.Family.Pattern
import MipModel.Polynomial.Text

/-!
# Written expressions

The form in which error messages show an expression. Sums and differences stand between
parentheses, products and quotients do not.
-/

namespace MipModel

variable {α : Type} [Scalar α]

mutual

def IndexExpr.text : IndexExpr α → String
  | .literal n => toString n
  | .symbol name => name
  | .wildcard => "_"
  | .computed e => e.text

def IndexExpr.texts : List (IndexExpr α) → List String
  | [] => []
  | i :: rest => i.text :: IndexExpr.texts rest

def Domain.text : Domain α → String
  | .values members => "[" ++ ", ".intercalate (members.map toString) ++ "]"
  | .range first last => first.text ++ ".." ++ last.text
  | .named name => name

def Generator.text : Generator α → String
  | .of symbol domain => symbol ++ " <- " ++ domain.text

def Generator.texts : List (Generator α) → List String
  | [] => []
  | g :: rest => g.text :: Generator.texts rest

def Expr.text : Expr α → String
  | .const c => Scalar.text c
  | .poly p => "[" ++ p.text ++ "]"
  | .var family indices => family ++ Index.tupleText (IndexExpr.texts indices)
  | .param name indices => name ++ Index.tupleText (IndexExpr.texts indices)
  | .symbol name => name
  | .sum body generators =>
    "sum(" ++ body.text ++ " for " ++ ", ".intercalate (Generator.texts generators) ++ ")"
  | .add a b => "(" ++ a.text ++ " + " ++ b.text ++ ")"
  | .sub a b => "(" ++ a.text ++ " - " ++ b.text ++ ")"
  | .mul a b => a.text ++ " * " ++ b.text
  | .div a b => a.text ++ " / " ++ b.text
  | .neg a => "-" ++ a.text
  | .abs a => "abs(" ++ a.text ++ ")"
  | .max operands => "max(" ++ ", ".intercalate (Expr.texts operands) ++ ")"
  | .min operands => "min(" ++ ", ".intercalate (Expr.texts operands) ++ ")"
  | .and operands => "and(" ++ ", ".intercalate (Expr.texts operands) ++ ")"
  | .or operands => "or(" ++ ", ".intercalate (Expr.texts operands) ++ ")"
  | .ifThenElse condition yes no =>
    "if " ++ condition.text ++ " then " ++ yes.text ++ " else " ++ no.text
  | .piecewise argument shape =>
    "pwl(" ++ argument.text ++ ", " ++ Scalar.listText shape.breakpoints ++ ", " ++
      Scalar.listText shape.slopes ++ ", " ++ Scalar.listText shape.intercepts ++ ")"

def Expr.texts : List (Expr α) → List String
  | [] => []
  | e :: rest => e.text :: Expr.texts rest

end

end MipModel
