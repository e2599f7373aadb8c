import MipModel.Error
import MipModel.Family.Pattern
import MipModel.Table.Sorted

/-!
# Data

The named constants that a model is built against: numbers, lists of integers that generators
range over, and tables of numbers by index tuple. A number also serves as a table without indices.
-/

namespace MipModel

structure Data (α : Type) where
  scalars : SortedTable String α
  domains : SortedTable String (List Int)
  tables : SortedTable String (SortedTable Index α)
  deriving DecidableEq, Repr

namespace Data

variable {α : Type}

def empty : Data α := ⟨∅, ∅, ∅⟩

instance instInhabited : Inhabited (Data α) := ⟨empty⟩

def withScalar (d : Data α) (name : String) (value : α) : Data α :=
  { d with scalars := d.scalars.insert name value }

def withDomain (d : Data α) (name : String) (values : List Int) : Data α :=
  { d with domains := d.domains.insert name values }

/-- Define a table; of two entries at the same tuple the later one counts. -/
def withTable (d : Data α) (name : String) (entries : List (Index × α)) : Data α :=
  { d with tables := d.tables.insert name (SortedTable.ofList entries) }

def scalar? (d : Data α) (name : String) : Option α := d.scalars.find? name

def domain (d : Data α) (name : String) : Outcome α (List Int) :=
  match d.domains.find? name with
  | some values => .ok values
  | none => .error (.unknownParameter name)

def tableEntry (d : Data α) (name : String) (index : Index) : Outcome α α :=
  match d.tables.find? name with
  | none => .error (.unknownParameter name)
  | some table =>
    match table.find? index with
    | some value => .ok value
    | none => .error (.unknownParameter (name ++ index.text))

/-- A parameter: a number if there are no indices and there is one of this name, else the entry
of a table. -/
def param (d : Data α) (name : String) (index : Index) : Outcome α α :=
  match index, d.scalar? name with
  | [], some value => .ok value
  | _, _ => d.tableEntry name index

end Data
end MipModel
