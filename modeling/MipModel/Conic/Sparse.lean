import MipModel.Scalar.Basic

/-!
# Sparse matrices

A sparse matrix is stored in compressed form, column by column: the rows and the values of its
entries, and for every column the offset at which its entries begin. It is assembled from triplets
of a row, a column and a value. Triplets outside of the matrix are dropped, and the others are
collected and compressed.

Compressing is left to an instance of `Compression`. It is relied on to sort the triplets by their
places and to sum the values of one place; nothing here depends on how it does so.
-/

namespace MipModel

structure Triplet (α : Type) where
  row : Nat
  column : Nat
  value : α
  deriving DecidableEq, Repr

namespace Triplet

variable {α : Type}

/-- Whether the place of a triplet belongs to a matrix of a size. -/
def isInside (height width : Nat) (t : Triplet α) : Bool :=
  decide (t.row < height ∧ t.column < width)

/-- The triplets of parallel lists; what the longer lists have in excess is ignored. -/
def zip (rows columns : List Nat) (values : List α) : List (Triplet α) :=
  ((rows.zip columns).zip values).map fun t => ⟨t.1.1, t.1.2, t.2⟩

end Triplet

/-- The triplets collected for a matrix, in the order in which they were given. -/
structure Coordinates (α : Type) where
  height : Nat
  width : Nat
  triplets : List (Triplet α)
  inside : ∀ t ∈ triplets, t.isInside height width = true

/-- Collect the triplets that lie inside of a matrix. -/
def Coordinates.ofTriplets {α : Type} (height width : Nat) (given : List (Triplet α)) :
    Coordinates α where
  height := height
  width := width
  triplets := given.filter (Triplet.isInside height width)
  inside _ member := (List.mem_filter.mp member).2

/-- A matrix in compressed form. -/
structure SparseMatrix (α : Type) where
  height : Nat
  /-- Where every column begins in the lists of rows and values, and where the last one ends. -/
  offsets : List Nat
  rows : List Nat
  values : List α
  deriving DecidableEq, Repr

/-- A way of turning collected triplets into compressed form. -/
class Compression (α : Type) where
  compress : Coordinates α → SparseMatrix α

namespace SparseMatrix

variable {α : Type}

def width (m : SparseMatrix α) : Nat := m.offsets.length - 1

def size (m : SparseMatrix α) : Nat := m.values.length

def zeros (height width : Nat) : SparseMatrix α := ⟨height, List.replicate (width + 1) 0, [], []⟩

/-- What is stored between the offset of a column and the next one. -/
def column (m : SparseMatrix α) (j : Nat) : List (Nat × α) :=
  ((m.rows.zip m.values).take (m.offsets.getD (j + 1) 0)).drop (m.offsets.getD j 0)

/-- The stored values, column by column. -/
def toTriplets (m : SparseMatrix α) : List (Triplet α) :=
  (List.range m.width).flatMap fun j => (m.column j).map fun e => ⟨e.1, j, e.2⟩

variable [Compression α]

/-- The matrix of parallel lists of rows, columns and values. -/
def ofLists (height width : Nat) (rows columns : List Nat) (values : List α) : SparseMatrix α :=
  if rows.isEmpty then zeros height width
  else Compression.compress (.ofTriplets height width (Triplet.zip rows columns values))

def ofTriplets (height width : Nat) (triplets : List (Triplet α)) : SparseMatrix α :=
  ofLists height width (triplets.map Triplet.row) (triplets.map Triplet.column)
    (triplets.map Triplet.value)

end SparseMatrix
end MipModel
