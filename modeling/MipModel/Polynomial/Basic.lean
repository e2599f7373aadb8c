import MipModel.Error
import MipModel.Polynomial.Monomial
import MipModel.Table.Sorted

/-!
# Polynomials

A polynomial over named variables maps monomials to their coefficients. Like terms are merged as
they arise, a coefficient equal to zero is never stored, and the constant term sits under the
empty monomial. Polynomials of any degree are allowed here; the forms in which a model leaves the
library set their own limits.

Coefficients are combined one by one in the order of the terms, so rounding scalars give the same
result wherever the same terms meet in the same order.
-/

namespace MipModel

/-- A sum of monomials with coefficients. -/
structure Polynomial (α : Type) where
  terms : SortedTable Monomial α
  deriving DecidableEq, Repr

abbrev Assignment (α : Type) := String → Option α

namespace Polynomial

variable {α : Type}

def zero : Polynomial α := ⟨∅⟩

instance instInhabited : Inhabited (Polynomial α) := ⟨zero⟩

def toList (p : Polynomial α) : List (Monomial × α) := p.terms.entries

/-- The number of terms, a constant term included. -/
def size (p : Polynomial α) : Nat := p.terms.size

def isZero (p : Polynomial α) : Bool := p.terms.isEmpty

/-- The degree of the largest monomial; zero for constants. -/
def degree (p : Polynomial α) : Nat :=
  (p.terms.keys.map Monomial.degree).foldl max 0

/-- Whether there are no terms but a constant one. -/
def isConstant (p : Polynomial α) : Bool := p.terms.keys.all Monomial.isConstant

/-- The variables that occur, each as often as it does. -/
def occurrences (p : Polynomial α) : List String := p.terms.keys.flatMap Monomial.names

/-- The variables that occur, in ascending order and without repetition. -/
def vars (p : Polynomial α) : List String :=
  (SortedTable.ofList (p.occurrences.map fun name => (name, ()))).keys

def linearTerms (p : Polynomial α) : List (String × α) :=
  p.toList.filterMap fun
    | (⟨[name]⟩, c) => some (name, c)
    | _ => none

def quadraticTerms (p : Polynomial α) : List (String × String × α) :=
  p.toList.filterMap fun
    | (⟨[a, b]⟩, c) => some (a, b, c)
    | _ => none

variable [Scalar α]

def constant (c : α) : Polynomial α :=
  if c == 0 then zero else ⟨⟨[(Monomial.one, c)]⟩⟩

def var (name : String) : Polynomial α := ⟨⟨[(Monomial.var name, 1)]⟩⟩

/-- The coefficient of a monomial; zero if it does not occur. -/
def coefficient (p : Polynomial α) (m : Monomial) : α := (p.terms.find? m).getD 0

/-- Add a multiple of a monomial. The term disappears when the sum of its coefficients is zero. -/
def addTerm (p : Polynomial α) (m : Monomial) (c : α) : Polynomial α :=
  if c == 0 then p
  else
    let sum := p.coefficient m + c
    if sum == 0 then ⟨p.terms.erase m⟩ else ⟨p.terms.insert m sum⟩

def addTerms (p : Polynomial α) (terms : List (Monomial × α)) : Polynomial α :=
  terms.foldl (fun sum t => sum.addTerm t.1 t.2) p

def ofTerms (terms : List (Monomial × α)) : Polynomial α := zero.addTerms terms

def add (p q : Polynomial α) : Polynomial α := p.addTerms q.toList

def scale (p : Polynomial α) (k : α) : Polynomial α :=
  if k == 0 then zero
  else ⟨⟨(p.toList.map fun t => (t.1, t.2 * k)).filter fun t => !(t.2 == 0)⟩⟩

def negate (p : Polynomial α) : Polynomial α := p.scale (-1)

def subtract (p q : Polynomial α) : Polynomial α := p.add q.negate

/-- The product of two polynomials, term by term. -/
def multiply (p q : Polynomial α) : Polynomial α :=
  ofTerms (p.toList.flatMap fun s => q.toList.map fun t => (s.1.product t.1, s.2 * t.2))

def sum (ps : List (Polynomial α)) : Polynomial α := ps.foldl add zero

def constantTerm (p : Polynomial α) : α := p.coefficient Monomial.one

def constantValue? (p : Polynomial α) : Option α :=
  if p.isConstant then some p.constantTerm else none

def withoutConstant (p : Polynomial α) : Polynomial α := ⟨p.terms.erase Monomial.one⟩

/-- The name of the variable that a polynomial consists of, with coefficient one. -/
def asVariable? (p : Polynomial α) : Option String :=
  match p.toList with
  | [(⟨[name]⟩, c)] => if c == 1 then some name else none
  | _ => none

/-- The product of the factors of a monomial, with a polynomial in place of one variable. -/
def substituteFactors (name : String) (replacement : Polynomial α) (m : Monomial) (c : α) :
    Polynomial α :=
  let replaced := (m.names.filter (· = name)).foldl (fun p _ => p.multiply replacement) (constant c)
  replaced.multiply (ofTerms [(Monomial.ofNames (m.names.filter (· ≠ name)), 1)])

/-- Put a polynomial in place of a variable. -/
def substitute (p : Polynomial α) (name : String) (replacement : Polynomial α) : Polynomial α :=
  sum (p.toList.map fun t => substituteFactors name replacement t.1 t.2)

/-- The value of a name, or an error if it has none. -/
def lookup (values : Assignment α) (name : String) : Outcome α α :=
  match values name with
  | some v => .ok v
  | none => .error (.undefinedVariable name)

def evaluateTerm (values : Assignment α) (m : Monomial) (c : α) : Outcome α α :=
  m.names.foldlM (fun product name => return product * (← lookup values name)) c

/-- The value of a polynomial under an assignment of all its variables. -/
def evaluate (p : Polynomial α) (values : Assignment α) : Outcome α α :=
  p.toList.foldlM (fun total t => return total + (← evaluateTerm values t.1 t.2)) 0

/-- Equality of terms, coefficients being compared as numbers. -/
instance instBEq : BEq (Polynomial α) where
  beq p q := p.terms.keys == q.terms.keys &&
    (p.terms.values.zip q.terms.values).all fun cs => cs.1 == cs.2

end Polynomial
end MipModel
