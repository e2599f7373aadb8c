import MipModel.Proofs.Insertion

/-!
# Assembling sparse matrices

A matrix that is assembled from lists of rows, columns and values stores the places inside of it that
are given, each with the sum of what is given for it, and its offsets mark off what its columns store
(`ofLists_assembles`). Of the compression no more is used than that it is lawful.
-/

namespace MipModel.SparseMatrix

variable {α : Type}

section Offsets

variable {m : SparseMatrix α} {height width : Nat} {triplets : List (Triplet α)}

theorem Compresses.length_offsets (h : m.Compresses height width triplets) :
    m.offsets.length = width + 1 := by
  rw [h.offsets, List.length_map, List.length_range]

theorem Compresses.head?_offsets (h : m.Compresses height width triplets) :
    m.offsets.head? = some 0 := by
  have none : (triplets.countP fun t => t.column < 0) = 0 :=
    List.countP_eq_zero.mpr fun t _ => by simp
  rw [List.head?_eq_getElem?, h.getElem?_offsets (Nat.zero_le width), none]

/-- The more columns, the more triplets are in them. -/
theorem Compresses.pairwise_offsets (h : m.Compresses height width triplets) :
    m.offsets.Pairwise (· ≤ ·) := by
  rw [h.offsets, List.pairwise_map]
  refine (List.pairwise_lt_range).imp fun below => List.countP_mono_left fun t _ before => ?_
  simp only [decide_eq_true_eq] at before ⊢
  exact before.trans below

theorem Compresses.getLast?_offsets (h : m.Compresses height width triplets)
    (inside : ∀ t ∈ triplets, t.column < width) : m.offsets.getLast? = some m.size := by
  have all : (triplets.countP fun t => t.column < width) = triplets.length :=
    List.countP_eq_length.mpr (by simpa using inside)
  rw [List.getLast?_eq_getElem?, h.length_offsets, Nat.add_sub_cancel,
    h.getElem?_offsets (Nat.le_refl width), all, h.size_eq]

end Offsets

/-- The matrix of parallel lists has the size asked for. It lists, column by column and with
ascending rows, exactly the places inside of it that are given, each with the sum from the left of
the values given for it. The offsets begin at zero, never descend, end at the number of stored
values, and mark off what each column lists. -/
theorem ofLists_assembles [Add α] [Compression α] (lawful : Compression.Lawful α)
    (height width : Nat) (rows columns : List Nat) (values : List α) :
    let given : List (Triplet α) :=
      ((rows.zip columns).zip values).map fun t => ⟨t.1.1, t.1.2, t.2⟩
    let m := ofLists height width rows columns values
    (m.height = height ∧ m.width = width) ∧
    m.toTriplets.Pairwise Triplet.Before ∧
    (∀ t, t ∈ m.toTriplets ↔ (t.row < height ∧ t.column < width) ∧
      ∃ first rest, Triplet.valuesAt given t.row t.column = first :: rest ∧
        t.value = rest.foldl (· + ·) first) ∧
    (m.rows = m.toTriplets.map Triplet.row ∧ m.values = m.toTriplets.map Triplet.value) ∧
    (m.offsets.length = width + 1 ∧ m.offsets.head? = some 0 ∧ m.offsets.Pairwise (· ≤ ·) ∧
      m.offsets.getLast? = some m.size ∧ m.size = m.toTriplets.length) ∧
    ∀ j < width, ∃ start stop, m.offsets[j]? = some start ∧ m.offsets[j + 1]? = some stop ∧
      (m.toTriplets.take stop).drop start = m.toTriplets.filter fun t => t.column = j := by
  intro given m
  let collected : Coordinates α := .ofTriplets height width given
  have form : m.Compresses height width collected.merged :=
    compresses_ofLists lawful height width rows columns values
  have listed : m.toTriplets = collected.merged :=
    toTriplets_ofLists lawful height width rows columns values
  have ordered : collected.merged.Pairwise Triplet.Before := collected.pairwise_merged
  have byColumn : Triplet.ByColumn collected.merged := Triplet.byColumn_of_before ordered
  have inside : ∀ t ∈ collected.merged, t.column < width := fun t member =>
    (Coordinates.inside_of_mem_merged member).2
  refine ⟨⟨form.height, form.width_eq⟩, ?_, fun t => ?_, ?_, ?_, fun j below => ?_⟩
  · rwa [listed]
  · have placed : Triplet.valuesAt collected.triplets t.row t.column = _ :=
      Triplet.valuesAt_filter_isInside
    rw [listed, Coordinates.mem_merged, placed, ← Triplet.total?_eq_some_iff]
    split
    next within => exact (and_iff_right within).symm
    next outside => exact iff_of_false nofun fun h => outside h.1
  · rw [listed]
    exact ⟨form.rows, form.values⟩
  · rw [listed]
    exact ⟨form.length_offsets, form.head?_offsets, form.pairwise_offsets,
      form.getLast?_offsets inside, form.size_eq⟩
  · refine ⟨_, _, form.getElem?_offsets below.le, form.getElem?_offsets below, ?_⟩
    rw [listed]
    exact Triplet.slice_of_column byColumn j

/-- Three numbers at one place, the second of which is lost in the first one: their sum from the
left is zero, and it is stored. One place lies outside, one column is too many. -/
theorem cancelled_place_assembled :
    let m : SparseMatrix Float := ofLists 2 3 [1, 0, 1, 2, 1] [2, 0, 2, 0, 2, 1]
      [9007199254740992, 4, 1, 9, -9007199254740992]
    Compression.Lawful Float ∧
    m.toTriplets = [⟨0, 0, 4⟩, ⟨1, 2, 0⟩] ∧ m.offsets = [0, 1, 1, 2] ∧ 2 < 3 ∧
      ∃ start stop, m.offsets[2]? = some start ∧ m.offsets[3]? = some stop ∧
        (m.toTriplets.take stop).drop start = m.toTriplets.filter fun t => t.column = 2 := by
  intro m
  obtain ⟨-, -, -, -, -, slices⟩ := ofLists_assembles Insertion.lawful_float 2 3 [1, 0, 1, 2, 1]
    [2, 0, 2, 0, 2, 1] [(9007199254740992 : Float), 4, 1, 9, -9007199254740992]
  exact ⟨Insertion.lawful_float, by decide +kernel, by decide +kernel, by decide,
    slices 2 (by decide)⟩

end MipModel.SparseMatrix
