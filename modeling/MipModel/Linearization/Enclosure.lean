import MipModel.Polynomial.Basic
import MipModel.Table.Registry
import MipModel.Variable.Basic

/-!
# Enclosures

Interval arithmetic over the bounds of variables: two numbers between which a polynomial takes its
values. A polynomial has an enclosure when all its variables are registered with finite bounds.
-/

namespace MipModel

/-- The numbers from a lower to an upper one. -/
structure Enclosure (α : Type) where
  lower : α
  upper : α
  deriving DecidableEq, Repr

namespace Enclosure

variable {α : Type} [Scalar α]

def point (x : α) : Enclosure α := ⟨x, x⟩

def add (a b : Enclosure α) : Enclosure α := ⟨a.lower + b.lower, a.upper + b.upper⟩

/-- The products of members: they lie between products of ends. -/
def mul (a b : Enclosure α) : Enclosure α :=
  let products :=
    [a.lower * b.lower, a.lower * b.upper, a.upper * b.lower, a.upper * b.upper]
  ⟨Scalar.leastOf products, Scalar.greatestOf products⟩

def ofVariable? (vars : Registry (Variable α)) (name : String) : Option (Enclosure α) := do
  let v ← vars.find? name
  let (lower, upper) ← v.finiteBounds?
  return ⟨lower, upper⟩

def ofTerm? (vars : Registry (Variable α)) (m : Monomial) (c : α) :
    Option (Enclosure α) := do
  let factors ← m.names.foldlM (fun range name => return range.mul (← ofVariable? vars name))
    (point 1)
  return factors.mul (point c)

/-- An enclosure of the values of a polynomial. -/
def ofPolynomial? (vars : Registry (Variable α)) (p : Polynomial α) :
    Option (Enclosure α) :=
  p.toList.foldlM (fun range t => return range.add (← ofTerm? vars t.1 t.2)) (point 0)

end Enclosure
end MipModel
