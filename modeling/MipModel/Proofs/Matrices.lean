import MipModel.Proofs.Compression

/-!
# What sparse matrices stand for

A sparse matrix has an entry at every place, the sum of what is stored there. Two readings are
defined from its entries: the product with a vector, and the quadratic form of the symmetric matrix
of which only the upper triangle is stored.

Both readings are sums of what the stored triplets contribute (`apply_eq_sum`, `form_eq_sum`), and
what a triplet contributes is a multiple of its value. Merging triplets keeps such sums
(`sum_merged`). So both readings of an assembled matrix can be taken from the triplets that are
given, as long as none lies outside of it (`apply_ofTriplets`, `form_ofTriplets`).
-/

namespace MipModel.SparseMatrix

open Finset

section Entries

/-- The entry at a place; zero where nothing is stored. -/
def entry (m : SparseMatrix Rat) (i j : Nat) : Rat := (Triplet.valuesAt m.toTriplets i j).sum

/-- The entry of the symmetric matrix whose upper triangle is stored. -/
def symmetricEntry (m : SparseMatrix Rat) (i j : Nat) : Rat := m.entry (min i j) (max i j)

def apply (m : SparseMatrix Rat) (x : Nat → Rat) (i : Nat) : Rat :=
  ∑ j ∈ range m.width, m.entry i j * x j

/-- The quadratic form of the symmetric matrix whose upper triangle is stored. -/
def form (m : SparseMatrix Rat) (x : Nat → Rat) : Rat :=
  ∑ i ∈ range m.width, ∑ j ∈ range m.width, x i * m.symmetricEntry i j * x j

end Entries

section Contributions

variable {triplets : List (Triplet Rat)} {x : Nat → Rat} {n : Nat}

theorem sum_valuesAt_cons (t : Triplet Rat) (triplets : List (Triplet Rat)) (i j : Nat) :
    (Triplet.valuesAt (t :: triplets) i j).sum =
      (if t.row = i ∧ t.column = j then t.value else 0) + (Triplet.valuesAt triplets i j).sum := by
  by_cases here : t.row = i ∧ t.column = j <;> simp [here]

/-- A sum over the columns of a row is a sum over triplets. -/
theorem sum_row (inside : ∀ t ∈ triplets, t.column < n) (i : Nat) :
    ∑ j ∈ range n, (Triplet.valuesAt triplets i j).sum * x j =
      (triplets.map fun t => t.value * if t.row = i then x t.column else 0).sum := by
  induction triplets with
  | nil => simp [Triplet.valuesAt]
  | cons t triplets ih =>
      obtain ⟨here, inside⟩ := List.forall_mem_cons.mp inside
      have column : t.column ∈ range n := mem_range.mpr here
      simp only [sum_valuesAt_cons, add_mul, sum_add_distrib, ih inside, ite_and, ite_mul, zero_mul,
        List.map_cons, List.sum_cons]
      by_cases row : t.row = i <;> simp [row, column]

/-- The products of components at a place on or above the diagonal and at its mirror image. -/
def mirrored (x : Nat → Rat) (i j : Nat) : Rat := if i = j then x i * x i else 2 * (x i * x j)

theorem sum_mirrored {i j : Nat} (ordered : i ≤ j) (inside : j < n) :
    (∑ k ∈ range n, ∑ l ∈ range n, if i = min k l ∧ j = max k l then x k * x l else 0) =
      mirrored x i j := by
  have column : j ∈ range n := mem_range.mpr inside
  have row : i ∈ range n := mem_range.mpr (ordered.trans_lt inside)
  rcases ordered.eq_or_lt with rfl | below
  · have diagonal : ∀ k l, (i = min k l ∧ i = max k l) ↔ i = k ∧ i = l := by omega
    simp [diagonal, mirrored, ite_and, sum_ite_eq, row]
  · have places : ∀ k l, (if i = min k l ∧ j = max k l then x k * x l else 0) =
        (if i = k then if j = l then x k * x l else 0 else 0) +
          if j = k then if i = l then x k * x l else 0 else 0 := by
      intro k l
      by_cases first : i = k <;> by_cases second : j = l <;> by_cases third : j = k <;>
        by_cases fourth : i = l <;> simp_all <;> omega
    simp only [places, sum_add_distrib, sum_ite_eq, sum_ite_irrel, sum_const_zero, row, column,
      if_true, mirrored, below.ne, if_false]
    ring

/-- A sum over all places and their mirror images is a sum over triplets on or above the
diagonal. -/
theorem sum_square (inside : ∀ t ∈ triplets, t.column < n)
    (upper : ∀ t ∈ triplets, t.row ≤ t.column) :
    ∑ i ∈ range n, ∑ j ∈ range n, x i * (Triplet.valuesAt triplets (min i j) (max i j)).sum * x j =
      (triplets.map fun t => t.value * mirrored x t.row t.column).sum := by
  induction triplets with
  | nil => simp [Triplet.valuesAt]
  | cons t triplets ih =>
      obtain ⟨here, inside⟩ := List.forall_mem_cons.mp inside
      obtain ⟨ordered, upper⟩ := List.forall_mem_cons.mp upper
      have split : ∀ i j, x i * (Triplet.valuesAt (t :: triplets) (min i j) (max i j)).sum * x j =
          (t.value * if t.row = min i j ∧ t.column = max i j then x i * x j else 0) +
            x i * (Triplet.valuesAt triplets (min i j) (max i j)).sum * x j := by
        intro i j
        rw [sum_valuesAt_cons]
        split <;> ring
      simp only [split, sum_add_distrib, ← mul_sum, sum_mirrored ordered here, ih inside upper,
        List.map_cons, List.sum_cons]

end Contributions

section Merging

/-- Summing runs keeps what is proportional to values. -/
theorem sum_sumRuns (weight : Nat → Nat → Rat) (triplets : List (Triplet Rat)) :
    ((Triplet.sumRuns triplets).map fun t => t.value * weight t.row t.column).sum =
      (triplets.map fun t => t.value * weight t.row t.column).sum := by
  have run : ∀ (t : Triplet Rat) (rest : List (Triplet Rat)),
      ((Triplet.sumRunsFrom t rest).map fun t => t.value * weight t.row t.column).sum =
        ((t :: rest).map fun t => t.value * weight t.row t.column).sum := by
    intro t rest
    induction rest generalizing t with
    | nil => rfl
    | cons u rest ih =>
        unfold Triplet.sumRunsFrom
        split
        next same =>
          rw [ih]
          simp only [List.map_cons, List.sum_cons, same.1, same.2]
          ring
        next => simp only [List.map_cons, List.sum_cons, ih]
  cases triplets with
  | nil => rfl
  | cons t rest => exact run t rest

theorem sum_merged (weight : Nat → Nat → Rat) (c : Coordinates Rat) :
    (c.merged.map fun t => t.value * weight t.row t.column).sum =
      (c.triplets.map fun t => t.value * weight t.row t.column).sum := by
  rw [Coordinates.merged, sum_sumRuns]
  exact ((List.mergeSort_perm c.triplets Triplet.notAfter).map _).sum_eq

end Merging

section Readings

variable {m : SparseMatrix Rat} {x : Nat → Rat}

theorem column_lt_of_mem_toTriplets {α : Type} {m : SparseMatrix α} {t : Triplet α}
    (member : t ∈ m.toTriplets) : t.column < m.width := by
  obtain ⟨j, inside, member⟩ := List.mem_flatMap.mp member
  obtain ⟨e, -, rfl⟩ := List.mem_map.mp member
  exact List.mem_range.mp inside

theorem apply_eq_sum (m : SparseMatrix Rat) (x : Nat → Rat) (i : Nat) :
    m.apply x i = (m.toTriplets.map fun t => t.value * if t.row = i then x t.column else 0).sum :=
  sum_row (fun _ => column_lt_of_mem_toTriplets) i

theorem form_eq_sum (upper : ∀ t ∈ m.toTriplets, t.row ≤ t.column) :
    m.form x = (m.toTriplets.map fun t => t.value * mirrored x t.row t.column).sum :=
  sum_square (fun _ => column_lt_of_mem_toTriplets) upper

variable [Compression Rat] {height width : Nat} {triplets : List (Triplet Rat)}

/-- The size of an assembled matrix is the one asked for. -/
theorem size_ofTriplets (lawful : Compression.Lawful Rat) (height width : Nat)
    (triplets : List (Triplet Rat)) : (ofTriplets height width triplets).height = height ∧
      (ofTriplets height width triplets).width = width :=
  have form := compresses_ofTriplets lawful height width triplets
  ⟨form.height, form.width_eq⟩

/-- Nothing is stored below the diagonal if no triplet lies there. -/
theorem upper_ofTriplets (lawful : Compression.Lawful Rat)
    (upper : ∀ t ∈ triplets, t.row ≤ t.column) :
    ∀ t ∈ (ofTriplets height width triplets).toTriplets, t.row ≤ t.column := by
  intro t member
  rw [toTriplets_ofTriplets lawful] at member
  obtain ⟨u, given, row, column⟩ := Coordinates.place_of_mem_merged member
  rw [← row, ← column]
  exact upper u (List.mem_filter.mp given).1

/-- What is stored contributes as much as what is given. -/
theorem sum_ofTriplets (lawful : Compression.Lawful Rat) (weight : Nat → Nat → Rat)
    (inside : ∀ t ∈ triplets, t.isInside height width = true) :
    ((ofTriplets height width triplets).toTriplets.map
        fun t => t.value * weight t.row t.column).sum =
      (triplets.map fun t => t.value * weight t.row t.column).sum := by
  have all : (Coordinates.ofTriplets height width triplets).triplets = triplets :=
    List.filter_eq_self.mpr inside
  rw [toTriplets_ofTriplets lawful, sum_merged, all]

theorem apply_ofTriplets (lawful : Compression.Lawful Rat)
    (inside : ∀ t ∈ triplets, t.isInside height width = true) (x : Nat → Rat) (i : Nat) :
    (ofTriplets height width triplets).apply x i =
      (triplets.map fun t => t.value * if t.row = i then x t.column else 0).sum := by
  rw [apply_eq_sum]
  exact sum_ofTriplets lawful (fun row column => if row = i then x column else 0) inside

theorem form_ofTriplets (lawful : Compression.Lawful Rat)
    (inside : ∀ t ∈ triplets, t.isInside height width = true)
    (upper : ∀ t ∈ triplets, t.row ≤ t.column) (x : Nat → Rat) :
    (ofTriplets height width triplets).form x =
      (triplets.map fun t => t.value * mirrored x t.row t.column).sum := by
  rw [form_eq_sum (upper_ofTriplets lawful upper)]
  exact sum_ofTriplets lawful (mirrored x) inside

end Readings

end MipModel.SparseMatrix
