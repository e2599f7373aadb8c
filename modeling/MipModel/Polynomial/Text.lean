import MipModel.Polynomial.Basic

/-!
# Written polynomials

A polynomial is written as its terms in order, with signs between them. A coefficient of magnitude
one is left out before a variable. Division lives here because its error shows the divisor.
-/

namespace MipModel.Polynomial

variable {α : Type} [Scalar α]

def termText (m : Monomial) (c : α) : String :=
  if m.isConstant then Scalar.text (Scalar.abs c)
  else if Scalar.abs c == 1 then m.text
  else Scalar.text (Scalar.abs c) ++ " " ++ m.text

def restText (terms : List (Monomial × α)) : String :=
  String.join (terms.map fun t => (if t.2 < 0 then " - " else " + ") ++ termText t.1 t.2)

/-- A polynomial in writing; without terms it is a zero. -/
def text (p : Polynomial α) : String :=
  match p.toList with
  | [] => "0"
  | (m, c) :: rest => (if c < 0 then "-" else "") ++ termText m c ++ restText rest

/-- The quotient by a polynomial that is a number other than zero. -/
def divide (p divisor : Polynomial α) : Outcome α (Polynomial α) :=
  match divisor.constantValue? with
  | none => .error (.nonConstantDivisor divisor.text)
  | some k => if k == 0 then .error .divisionByZero else .ok (p.scale (1 / k))

end MipModel.Polynomial
