import MipModel.Lp.Document

/-!
# LP text

The text of a document, line by line. Every line ends in a line break. Coefficients and right sides
always show a sign; bounds do not. The quadratic terms of an objective stand in brackets that are
divided by two, so their coefficients are doubled.
-/

namespace MipModel.Lp

variable {α : Type} [Scalar α]

def linearText (t : String × α) : String :=
  Scalar.signedText t.2 ++ " " ++ t.1

/-- A quadratic term, with a factor that all of its sum share. -/
def quadraticText (factor : α) (t : String × String × α) : String :=
  let (a, b, c) := t
  Scalar.signedText (c * factor) ++ " " ++ if a = b then a ++ " ^ 2" else a ++ " * " ++ b

/-- The quadratic terms between brackets; nothing if there are none. -/
def bracketText (factor : α) (tail : String) (quadratic : List (String × String × α)) :
    List String :=
  if quadratic.isEmpty then []
  else ["+ [ " ++ " ".intercalate (quadratic.map (quadraticText factor)) ++ tail]

/-- A body, with a factor for quadratic terms and what closes their bracket. -/
def Body.text (factor : α) (tail : String) : Body α → String
  | .terms linear quadratic =>
    " ".intercalate (linear.map linearText ++ bracketText factor tail quadratic)
  | .zero name => "0 " ++ name

def objectiveText (body : Body α) : String := body.text (Scalar.ofInt 2) " ] / 2"

def rowText (body : Body α) : String := body.text 1 " ]"

/-- The sign of a relation, without strictness. -/
def relationText : Comparison → String
  | .eq => "="
  | .le | .lt => "<="
  | .ge | .gt => ">="

def Row.text (r : Row α) : String :=
  " " ++ r.id ++ ": " ++ rowText r.body ++ " " ++ relationText r.relation ++ " " ++
    Scalar.signedText r.rhs

def Bound.text (b : Bound α) : String :=
  match b.lower, b.upper with
  | none, none => " " ++ b.name ++ " free"
  | some lower, none => " " ++ b.name ++ " >= " ++ Scalar.text lower
  | none, some upper => " -inf <= " ++ b.name ++ " <= " ++ Scalar.text upper
  | some lower, some upper =>
    " " ++ Scalar.text lower ++ " <= " ++ b.name ++ " <= " ++ Scalar.text upper

/-- A titled list of names, left out if there are none. -/
def titledList (title : String) (names : List String) : List String :=
  if names.isEmpty then [] else title :: names.map fun name => " " ++ name

def directionText : Direction → String
  | .minimize => "Minimize"
  | .maximize => "Maximize"

/-- The comment that notes the constant term of an objective. -/
def constantText (constant : α) : String := "\\ objective constant " ++ Scalar.signedText constant

namespace Document

def lines (d : Document α) : List String :=
  [directionText d.direction, " obj: " ++ objectiveText d.objective] ++
    (d.constant.map constantText).toList ++
    "Subject To" :: d.rows.map Row.text ++
    "Bounds" :: d.bounds.map Bound.text ++
    titledList "General" d.general ++ titledList "Binary" d.binary ++ ["End"]

def text (d : Document α) : String :=
  String.join (d.lines.map fun line => line ++ "\n")

end Document

def write (m : Model α) : Outcome α String :=
  return (← Document.ofModel m).text

end MipModel.Lp
