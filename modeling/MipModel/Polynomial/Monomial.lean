/-!
# Monomials

A monomial is a product of variables. It lists the names of its factors in ascending order, each
as often as it occurs, so that a product does not depend on the order of its factors. Monomials
are ordered lexicographically; the empty product comes first.
-/

namespace MipModel

/-- A product of variables, with its factors in ascending order. -/
structure Monomial where
  names : List String
  deriving DecidableEq, Repr

namespace Monomial

def insertName (name : String) : List String → List String
  | [] => [name]
  | first :: rest =>
    if first < name then first :: insertName name rest else name :: first :: rest

def sortNames (names : List String) : List String :=
  names.foldr insertName []

def one : Monomial := ⟨[]⟩

def var (name : String) : Monomial := ⟨[name]⟩

def ofNames (names : List String) : Monomial := ⟨sortNames names⟩

def product (a b : Monomial) : Monomial := ofNames (a.names ++ b.names)

def degree (m : Monomial) : Nat := m.names.length

def isConstant (m : Monomial) : Bool := m.names.isEmpty

def contains (m : Monomial) (name : String) : Bool := m.names.contains name

instance instLT : LT Monomial := ⟨fun a b => a.names < b.names⟩

instance instDecidableLT : DecidableLT Monomial :=
  fun a b => inferInstanceAs (Decidable (a.names < b.names))

/-- The factors with stars between them; the empty product is one. -/
def text (m : Monomial) : String :=
  if m.isConstant then "1" else "*".intercalate m.names

end Monomial
end MipModel
