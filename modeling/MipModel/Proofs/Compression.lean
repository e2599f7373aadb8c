import MipModel.Proofs.Runs

/-!
# Compressed form

A matrix is the compressed form of a list of triplets when it stores their rows and values in the
order of the list, and for every column the number of triplets in the columns before it
(`SparseMatrix.Compresses`). If the list is sorted by columns, what a column stores is the slice
between its offset and the next one, and the columns together give back the list
(`Compresses.toTriplets_eq`).

Compression is relied on to sort the triplets stably by their places, to sum the runs of triplets at
one place, and to bring the rest into compressed form (`Compression.Lawful`). It is applied to the
triplets inside of a matrix, and not at all when there are no rows; in either case the matrix of
three lists is the compressed form of what they place inside of it (`compresses_ofLists`).
-/

namespace MipModel

variable {α : Type}

/-- A matrix stores triplets in their order, and the numbers of those in the columns before each
column. -/
structure SparseMatrix.Compresses (m : SparseMatrix α) (height width : Nat)
    (triplets : List (Triplet α)) : Prop where
  height : m.height = height
  rows : m.rows = triplets.map Triplet.row
  values : m.values = triplets.map Triplet.value
  offsets : m.offsets = (List.range (width + 1)).map fun j =>
    triplets.countP fun t => t.column < j

/-- What compression is relied on for: triplets are sorted by column and row, triplets at one place
staying in their order, and each run of triplets at one place is summed from the left. -/
structure Compression.Lawful (α : Type) [Add α] [Compression α] : Prop where
  compresses : ∀ c : Coordinates α,
    (Compression.compress c).Compresses c.height c.width c.merged

namespace Triplet

variable {triplets : List (Triplet α)}

def ByColumn (triplets : List (Triplet α)) : Prop :=
  triplets.Pairwise fun t u => t.column ≤ u.column

@[simp] theorem zip_map (triplets : List (Triplet α)) :
    zip (triplets.map row) (triplets.map column) (triplets.map value) = triplets := by
  simp [zip, List.zip_map', Function.comp_def]

theorem byColumn_of_before (ordered : triplets.Pairwise Before) : ByColumn triplets :=
  ordered.imp fun before => before.elim Nat.le_of_lt fun same => same.1.le

/-- Behind a triplet that is not before a column, no triplet is. -/
theorem filter_column_eq_nil {t : Triplet α} (sorted : ByColumn (t :: triplets)) {j : Nat}
    (notBefore : j ≤ t.column) : (triplets.filter fun u => u.column < j) = [] := by
  refine List.filter_eq_nil_iff.mpr fun u later => ?_
  have := List.rel_of_pairwise_cons sorted later
  simp only [decide_eq_true_eq]
  omega

/-- In a list that is sorted by columns, the triplets before a column come first. -/
theorem take_countP_column (sorted : ByColumn triplets) (j : Nat) :
    triplets.take (triplets.countP fun t => t.column < j) =
      triplets.filter fun t => t.column < j := by
  induction triplets with
  | nil => rfl
  | cons t triplets ih =>
      by_cases before : t.column < j
      · simp [before, ih sorted.of_cons]
      · have none := filter_column_eq_nil sorted (Nat.le_of_not_lt before)
        rw [List.countP_eq_length_filter, List.filter_cons_of_neg (by simpa using before), none]
        rfl

/-- The triplets up to a column are those before it and those in it. -/
theorem filter_column_succ (sorted : ByColumn triplets) (j : Nat) :
    (triplets.filter fun t => t.column < j + 1) =
      (triplets.filter fun t => t.column < j) ++ triplets.filter fun t => t.column = j := by
  induction triplets with
  | nil => rfl
  | cons t triplets ih =>
      have rest := ih sorted.of_cons
      simp only [List.filter_cons, decide_eq_true_eq]
      obtain before | here | after := Nat.lt_trichotomy t.column j
      · rw [if_pos (Nat.lt_succ_of_lt before), if_pos before, if_neg before.ne, rest,
          List.cons_append]
      · have none := filter_column_eq_nil sorted here.ge
        rw [if_pos (by omega), if_neg (by omega), if_pos here, rest, none]
        rfl
      · rw [if_neg (by omega), if_neg (by omega), if_neg after.ne', rest]

/-- Between the numbers of the triplets before a column and before the next one, the triplets of the
column are found. -/
theorem slice_of_column (sorted : ByColumn triplets) (j : Nat) :
    (triplets.take (triplets.countP fun t => t.column < j + 1)).drop
        (triplets.countP fun t => t.column < j) =
      triplets.filter fun t => t.column = j := by
  rw [take_countP_column sorted, filter_column_succ sorted, List.countP_eq_length_filter]
  exact List.drop_left

/-- The columns of a sorted list, one after another, are the list. -/
theorem flatMap_columns (sorted : ByColumn triplets) {width : Nat}
    (inside : ∀ t ∈ triplets, t.column < width) :
    ((List.range width).flatMap fun j => triplets.filter fun t => t.column = j) = triplets := by
  have upTo : ∀ n, ((List.range n).flatMap fun j => triplets.filter fun t => t.column = j) =
      triplets.filter fun t => t.column < n := by
    intro n
    induction n with
    | zero => simp
    | succ n ih =>
        rw [List.range_succ, List.flatMap_append, ih, List.flatMap_singleton,
          filter_column_succ sorted]
  rw [upTo, List.filter_eq_self]
  simpa using inside

end Triplet

namespace SparseMatrix.Compresses

variable {m : SparseMatrix α} {height width : Nat} {triplets : List (Triplet α)}

theorem width_eq (h : m.Compresses height width triplets) : m.width = width := by
  rw [SparseMatrix.width, h.offsets, List.length_map, List.length_range, Nat.add_sub_cancel]

theorem size_eq (h : m.Compresses height width triplets) : m.size = triplets.length := by
  rw [size, h.values, List.length_map]

theorem getElem?_offsets (h : m.Compresses height width triplets) {j : Nat} (inside : j ≤ width) :
    m.offsets[j]? = some (triplets.countP fun t => t.column < j) := by
  rw [h.offsets, List.getElem?_map, List.getElem?_range (Nat.lt_succ_of_le inside)]
  rfl

/-- What a column stores are the rows and values of its triplets. -/
theorem column_eq (h : m.Compresses height width triplets)
    (sorted : Triplet.ByColumn triplets) {j : Nat} (inside : j < width) :
    m.column j = (triplets.filter fun t => t.column = j).map fun t => (t.row, t.value) := by
  rw [column, h.rows, h.values, List.zip_map', List.getD_eq_getElem?_getD,
    List.getD_eq_getElem?_getD, h.getElem?_offsets inside, h.getElem?_offsets inside.le,
    Option.getD_some, Option.getD_some, ← List.map_take, ← List.map_drop,
    Triplet.slice_of_column sorted]

/-- The compressed form of a sorted list lists its triplets. -/
theorem toTriplets_eq (h : m.Compresses height width triplets)
    (sorted : Triplet.ByColumn triplets) (inside : ∀ t ∈ triplets, t.column < width) :
    m.toTriplets = triplets := by
  conv_rhs => rw [← Triplet.flatMap_columns sorted inside]
  rw [toTriplets, h.width_eq]
  refine List.flatMap_congr fun j below => ?_
  have here : ∀ t ∈ triplets.filter (fun t => t.column = j),
      (⟨t.row, j, t.value⟩ : Triplet α) = t := by
    intro t member
    obtain rfl : t.column = j := by simpa using (List.mem_filter.mp member).2
    rfl
  rw [h.column_eq sorted (List.mem_range.mp below), List.map_map]
  exact (List.map_congr_left here).trans (List.map_id _)

end SparseMatrix.Compresses

namespace SparseMatrix

theorem compresses_zeros (height width : Nat) :
    (zeros height width : SparseMatrix α).Compresses height width [] where
  height := rfl
  rows := rfl
  values := rfl
  offsets := by simp [zeros]

variable [Add α] [Compression α]

/-- The matrix of three lists is the compressed form of what they place inside of it, sorted and
with the values of each place summed. -/
theorem compresses_ofLists (lawful : Compression.Lawful α) (height width : Nat)
    (rows columns : List Nat) (values : List α) :
    (ofLists height width rows columns values).Compresses height width
      (Coordinates.ofTriplets height width (Triplet.zip rows columns values)).merged := by
  unfold ofLists
  split
  next empty =>
    obtain rfl := List.isEmpty_iff.mp empty
    simpa [Triplet.zip, Coordinates.ofTriplets, Coordinates.merged, Triplet.sumRuns] using
      compresses_zeros height width
  next => exact lawful.compresses _

/-- It lists these triplets. -/
theorem toTriplets_ofLists (lawful : Compression.Lawful α) (height width : Nat)
    (rows columns : List Nat) (values : List α) :
    (ofLists height width rows columns values).toTriplets =
      (Coordinates.ofTriplets height width (Triplet.zip rows columns values)).merged :=
  (compresses_ofLists lawful height width rows columns values).toTriplets_eq
    (Triplet.byColumn_of_before (Coordinates.pairwise_merged _))
    fun _ member => (Coordinates.inside_of_mem_merged member).2

theorem compresses_ofTriplets (lawful : Compression.Lawful α) (height width : Nat)
    (triplets : List (Triplet α)) :
    (ofTriplets height width triplets).Compresses height width
      (Coordinates.ofTriplets height width triplets).merged := by
  have form := compresses_ofLists lawful height width (triplets.map Triplet.row)
    (triplets.map Triplet.column) (triplets.map Triplet.value)
  rwa [Triplet.zip_map] at form

theorem toTriplets_ofTriplets (lawful : Compression.Lawful α) (height width : Nat)
    (triplets : List (Triplet α)) :
    (ofTriplets height width triplets).toTriplets =
      (Coordinates.ofTriplets height width triplets).merged := by
  rw [ofTriplets, toTriplets_ofLists lawful, Triplet.zip_map]

end SparseMatrix
end MipModel
