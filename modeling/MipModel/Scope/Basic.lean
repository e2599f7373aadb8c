import MipModel.Scope.Data

/-!
# Scopes

What the symbols of an expression mean: the values that generators have bound, innermost binding
first, and the data beneath them. An inner binding of a symbol shadows the outer ones.
-/

namespace MipModel

/-- Generator bindings over data. -/
structure Scope (α : Type) where
  bindings : List (String × Int)
  data : Data α
  deriving DecidableEq, Repr

namespace Scope

variable {α : Type}

def ofData (data : Data α) : Scope α := ⟨[], data⟩

def empty : Scope α := ofData .empty

instance instInhabited : Inhabited (Scope α) := ⟨empty⟩

def bind (s : Scope α) (symbol : String) (value : Int) : Scope α :=
  { s with bindings := (symbol, value) :: s.bindings }

def lookup? (s : Scope α) (symbol : String) : Option Int :=
  (s.bindings.find? fun b => b.1 = symbol).map Prod.snd

def isUnbound (s : Scope α) : Bool := s.bindings.isEmpty

/-- The bindings that are not shadowed, innermost first. -/
def visible : List (String × Int) → List (String × Int)
  | [] => []
  | b :: outer => b :: (visible outer).filter fun c => c.1 ≠ b.1

/-- The bindings in effect, in writing, the outermost first. -/
def text (s : Scope α) : String :=
  ", ".intercalate ((visible s.bindings).reverse.map fun b => b.1 ++ " = " ++ toString b.2)

end Scope
end MipModel
