import MipModel.Scalar.Basic

/-!
# Exact scalars

Rationals are scalars whose arithmetic does not round: every number is finite, every comparison
decides the order of the rationals, and the least member of a list is a true minimum. They are
written as a numerator over a denominator.
-/

namespace MipModel.Rational

/-- The nearest whole number; a half goes away from zero. -/
def round (x : Rat) : Rat :=
  if 0 ≤ x then ((x + 1 / 2).floor : Rat) else -((-x + 1 / 2).floor : Rat)

def least (a b : Rat) : Rat :=
  if a < b then a else b

def greatest (a b : Rat) : Rat :=
  if b < a then a else b

/-- The member that a choice between two members leaves over; zero for the empty list. -/
def select (choose : Rat → Rat → Rat) : List Rat → Rat
  | [] => 0
  | x :: rest => rest.foldl choose x

def text (x : Rat) : String :=
  if x.den = 1 then toString x.num else toString x.num ++ "/" ++ toString x.den

instance instScalar : Scalar Rat where
  zero := 0
  one := 1
  decLe := inferInstance
  decLt := inferInstance
  ofInt := fun n => n
  integer? := fun x => if x.den = 1 then some x.num else none
  isFinite := fun _ => true
  abs := fun x => if x < 0 then -x else x
  round := round
  least := least
  greatest := greatest
  leastOf := select least
  greatestOf := select greatest
  text := text
  signedText := fun x => if x < 0 then text x else "+" ++ text x
  listedText := text

end MipModel.Rational
