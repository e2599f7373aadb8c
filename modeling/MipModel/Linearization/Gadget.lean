import MipModel.Constraint.Basic
import MipModel.Linearization.BigM
import MipModel.Linearization.Construct

/-!
# Gadgets

A gadget is a construct applied to operands. Over polynomials it is encoded by a variable that
stands for its value, companion variables that make choices, and rows that tie them to the operands:

* a magnitude lies above its operand and above the operand's negation;
* a maximum lies above, a minimum below every operand;
* a conjunction lies below every operand, and above their sum less all but one;
* a disjunction lies above every operand, and below their sum;
* a case distinction has a switch equal to the condition, which leaves in force the rows of one
  branch;
* a piecewise function has one switch per segment, exactly one of which is on and leaves in force
  the rows of its segment.
-/

namespace MipModel

/-- A construct applied to operands of some type. -/
inductive Gadget (ω α : Type) where
  | abs (operand : ω)
  | max (operands : List ω)
  | min (operands : List ω)
  | and (operands : List ω)
  | or (operands : List ω)
  | ifThenElse (condition yes no : ω)
  | piecewise (argument : ω) (shape : Piecewise α)
  deriving DecidableEq, Repr

namespace Gadget

variable {ω α : Type}

def construct : Gadget ω α → Construct
  | abs _ => .abs
  | max _ => .max
  | min _ => .min
  | and _ => .and
  | or _ => .or
  | ifThenElse .. => .ifThenElse
  | piecewise .. => .piecewise

def operands : Gadget ω α → List ω
  | abs e => [e]
  | max es | min es | and es | or es => es
  | ifThenElse c t f => [c, t, f]
  | piecewise e _ => [e]

def parameters : Gadget ω α → List α
  | piecewise _ shape => shape.numbers
  | _ => []

/-- What the variable of a gadget stands for. -/
def fingerprint (g : Gadget (Polynomial α) α) (context : String) : Fingerprint α :=
  ⟨g.construct, context, g.operands, g.parameters⟩

def kind : Gadget ω α → Variable.Kind
  | and _ | or _ => .binary
  | _ => .continuous

/-- The names of the switches of a gadget whose variable has a given name. -/
def companions (g : Gadget ω α) (name : String) : List String :=
  match g with
  | ifThenElse .. => [name ++ "_c"]
  | piecewise _ shape => (List.range shape.size).map fun i => name ++ "_s" ++ toString i
  | _ => []

/-- The variables of a gadget, its own first, with their kinds. -/
def vars (g : Gadget ω α) (name : String) : List (String × Variable.Kind) :=
  (name, g.kind) :: (g.companions name).map fun companion => (companion, .binary)

variable [Scalar α]

/-- The constant that switches rows of a gadget off. -/
def bigM (g : Gadget (Polynomial α) α) (s : Settings α) (vars : Registry (Variable α)) : α :=
  match g with
  | ifThenElse _ t f => BigM.forDifference s vars (t.subtract f)
  | piecewise e shape => BigM.forPiecewise s vars e shape
  | _ => s.bigM

/-- A polynomial that is the constant while a switch is off, and zero while it is on. -/
def offWhile (switch : Polynomial α) (m : α) : Polynomial α :=
  ((Polynomial.constant 1).subtract switch).scale m

/-- The rows of one segment: while its switch is on, the value lies on the segment and the argument
in its domain. -/
def pieceRows (value argument switch : Polynomial α) (m : α) (piece : Piece α) :
    List (Constraint α) :=
  let segment := (argument.scale piece.slope).add (Polynomial.constant piece.intercept)
  let slack := offWhile switch m
  [.compare value .le (segment.add slack),
   .compare value .ge (segment.subtract slack),
   .compare argument .ge ((Polynomial.constant piece.start).subtract slack),
   .compare argument .le ((Polynomial.constant piece.stop).add slack)]

/-- The rows of a gadget, without labels. -/
def rows (g : Gadget (Polynomial α) α) (name : String) (m : α) : List (Constraint α) :=
  let value := Polynomial.var name
  match g with
  | abs e => [.compare value .ge e, .compare value .ge e.negate]
  | max es => es.map fun e => .compare value .ge e
  | min es => es.map fun e => .compare value .le e
  | and es =>
    let allButOne := Polynomial.constant (Scalar.ofInt es.length - 1)
    (es.map fun e => .compare value .le e) ++
      [.compare value .ge ((Polynomial.sum es).subtract allButOne)]
  | or es =>
    (es.map fun e => .compare value .ge e) ++ [.compare value .le (Polynomial.sum es)]
  | ifThenElse c t f =>
    let switch := Polynomial.var (name ++ "_c")
    let off := offWhile switch m
    let on := switch.scale m
    [.compare switch .eq c,
     .compare value .le (t.add off), .compare value .ge (t.subtract off),
     .compare value .le (f.add on), .compare value .ge (f.subtract on)]
  | piecewise e shape =>
    let switches := (g.companions name).map Polynomial.var
    .compare (Polynomial.sum switches) .eq (Polynomial.constant 1) ::
      (switches.zip shape.pieces).flatMap fun s => pieceRows value e s.1 m s.2

end Gadget
end MipModel
