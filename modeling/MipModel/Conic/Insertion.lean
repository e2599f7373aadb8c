import MipModel.Conic.Sparse

/-!
# Compression by insertion

A compression that keeps every column as a list of its entries, with ascending rows. Triplets are
inserted into the columns one after another, and in the end the columns are joined.
-/

namespace MipModel.Insertion

variable {α : Type}

def addToColumn [Add α] (row : Nat) (value : α) : List (Nat × α) → List (Nat × α)
  | [] => [(row, value)]
  | e :: rest =>
    if row < e.1 then (row, value) :: e :: rest
    else if row = e.1 then (row, e.2 + value) :: rest
    else e :: addToColumn row value rest

def addTriplet [Add α] (columns : List (List (Nat × α))) (t : Triplet α) : List (List (Nat × α)) :=
  columns.modify t.column (addToColumn t.row t.value)

def columnsOf [Add α] (c : Coordinates α) : List (List (Nat × α)) :=
  c.triplets.foldl addTriplet (List.replicate c.width [])

/-- Where columns begin that are joined behind a number of entries, and where the last one ends. -/
def offsetsFrom (start : Nat) : List (List (Nat × α)) → List Nat
  | [] => [start]
  | column :: rest => start :: offsetsFrom (start + column.length) rest

def compress [Add α] (c : Coordinates α) : SparseMatrix α where
  height := c.height
  offsets := offsetsFrom 0 (columnsOf c)
  rows := (columnsOf c).flatten.map Prod.fst
  values := (columnsOf c).flatten.map Prod.snd

instance instCompression : Compression Float := ⟨compress⟩

end MipModel.Insertion
