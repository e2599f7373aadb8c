import MipModel.Family.Pattern
import MipModel.Polynomial.Basic

/-!
# Families

A family answers which polynomial, usually a single variable, sits at an index tuple. It lists its
members in lexicographic order of their tuples. A single member is looked up by its tuple; a
pattern selects all members whose tuples fit.
-/

namespace MipModel

/-- Members under index tuples, with a name for the whole. -/
structure Family (α : Type) where
  name : String
  members : SortedTable Index (Polynomial α)
  deriving DecidableEq, Repr

namespace Family

variable {α : Type}

def empty (name : String) : Family α := ⟨name, ∅⟩

/-- The family of a list of members; of two at the same tuple the later one counts. -/
def ofList (name : String) (members : List (Index × Polynomial α)) : Family α :=
  ⟨name, SortedTable.ofList members⟩

def toList (f : Family α) : List (Index × Polynomial α) := f.members.entries

def insert (f : Family α) (index : Index) (p : Polynomial α) : Family α :=
  { f with members := f.members.insert index p }

def size (f : Family α) : Nat := f.members.size

/-- The length of the tuples, taken from the first member. -/
def arity? (f : Family α) : Option Nat := f.members.keys.head?.map List.length

/-- The member at a tuple. A tuple of the wrong length is reported as such. -/
def lookup (f : Family α) (index : Index) : Outcome α (Polynomial α) :=
  match f.arity? with
  | some arity =>
    if arity ≠ index.length then .error (.arityMismatch f.name arity index.length)
    else find index
  | none => find index
where
  /-- The member at a tuple, whatever its length. -/
  find (index : Index) : Outcome α (Polynomial α) :=
    match f.members.find? index with
    | some p => .ok p
    | none => .error (.indexNotFound f.name index.text)

def fitting (f : Family α) (p : Pattern) : List (Index × Polynomial α) :=
  f.toList.filter fun member => p.fits member.1

def sumFitting [Scalar α] (f : Family α) (p : Pattern) : Polynomial α :=
  Polynomial.sum ((f.fitting p).map Prod.snd)

end Family

abbrev Families (α : Type) := SortedTable String (Family α)

namespace Families

def lookup {α : Type} (families : Families α) (name : String) : Outcome α (Family α) :=
  match families.find? name with
  | some f => .ok f
  | none => .error (.undefinedFamily name)

end Families
end MipModel
