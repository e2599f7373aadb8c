import Mathlib
import MipModel.Conic.Sparse

/-!
# Runs of triplets

The triplets of a matrix are ordered by columns, and within a column by rows. To sum what is given
for a place, they are sorted stably and each run of triplets at one place is summed from the left.

Sorting keeps the values given for a place and their order (`valuesAt_mergeSort`). So after the
runs have been summed there is one triplet for each place where a value is given, with the sum of
these values (`mem_merged`), and the triplets are in strict order (`pairwise_merged`).
-/

namespace MipModel

variable {α : Type}

namespace Triplet

section Order

/-- In the order of columns, and within a column in the order of rows, a triplet lies strictly
before another one. -/
def Before (t u : Triplet α) : Prop := t.column < u.column ∨ t.column = u.column ∧ t.row < u.row

instance instIrreflBefore : Std.Irrefl (Before (α := α)) where
  irrefl t h := by
    rcases h with h | ⟨-, h⟩
    · exact Nat.lt_irrefl _ h
    · exact Nat.lt_irrefl _ h

instance instAsymmBefore : Std.Asymm (Before (α := α)) where
  asymm t u h h' := by
    unfold Before at h h'
    omega

/-- A triplet lies before another one or at the same place. -/
def notAfter (t u : Triplet α) : Bool :=
  decide (t.column < u.column ∨ t.column = u.column ∧ t.row ≤ u.row)

@[simp] theorem notAfter_iff {t u : Triplet α} :
    t.notAfter u = true ↔ t.column < u.column ∨ t.column = u.column ∧ t.row ≤ u.row := by
  rw [notAfter, decide_eq_true_eq]

theorem notAfter_trans (t u v : Triplet α) (first : t.notAfter u = true)
    (second : u.notAfter v = true) : t.notAfter v = true := by
  rw [notAfter_iff] at first second ⊢
  omega

theorem notAfter_total (t u : Triplet α) : (t.notAfter u || u.notAfter t) = true := by
  rw [Bool.or_eq_true, notAfter_iff, notAfter_iff]
  omega

/-- A list of triplets in the order of their places. -/
def InOrder (triplets : List (Triplet α)) : Prop :=
  triplets.Pairwise fun t u => t.notAfter u = true

theorem inOrder_mergeSort (triplets : List (Triplet α)) : InOrder (triplets.mergeSort notAfter) :=
  List.pairwise_mergeSort notAfter_trans notAfter_total triplets

@[simp] theorem isInside_iff {height width : Nat} {t : Triplet α} :
    t.isInside height width = true ↔ t.row < height ∧ t.column < width :=
  decide_eq_true_iff

end Order

section Given

/-- The values given for a place, in the order in which they are given. -/
def valuesAt (triplets : List (Triplet α)) (i j : Nat) : List α :=
  (triplets.filter fun t => t.row = i ∧ t.column = j).map Triplet.value

variable {triplets : List (Triplet α)} {i j : Nat}

@[simp] theorem valuesAt_cons (t : Triplet α) (triplets : List (Triplet α)) (i j : Nat) :
    valuesAt (t :: triplets) i j =
      if t.row = i ∧ t.column = j then t.value :: valuesAt triplets i j
      else valuesAt triplets i j := by
  by_cases here : t.row = i ∧ t.column = j <;> simp [valuesAt, here]

@[simp] theorem valuesAt_concat (triplets : List (Triplet α)) (t : Triplet α) (i j : Nat) :
    valuesAt (triplets ++ [t]) i j =
      if t.row = i ∧ t.column = j then valuesAt triplets i j ++ [t.value]
      else valuesAt triplets i j := by
  by_cases here : t.row = i ∧ t.column = j <;> simp [valuesAt, List.filter_append, here]

/-- Where values are given, there is a triplet. -/
theorem exists_of_valuesAt {v : α} (given : v ∈ valuesAt triplets i j) :
    ∃ t ∈ triplets, t.row = i ∧ t.column = j := by
  obtain ⟨t, chosen, -⟩ := List.mem_map.mp given
  obtain ⟨member, place⟩ := List.mem_filter.mp chosen
  exact ⟨t, member, by simpa using place⟩

theorem valuesAt_filter_isInside {height width : Nat} :
    valuesAt (triplets.filter (Triplet.isInside height width)) i j =
      if i < height ∧ j < width then valuesAt triplets i j else [] := by
  induction triplets with
  | nil => simp [valuesAt]
  | cons t triplets ih =>
      by_cases inside : t.isInside height width = true
      · have place : t.row < height ∧ t.column < width := isInside_iff.mp inside
        rw [List.filter_cons_of_pos inside, valuesAt_cons, valuesAt_cons, ih]
        by_cases here : t.row = i ∧ t.column = j
        · obtain ⟨rfl, rfl⟩ := here
          simp [place]
        · simp [here]
      · have place : ¬(t.row < height ∧ t.column < width) := fun h => inside (isInside_iff.mpr h)
        rw [List.filter_cons_of_neg inside, ih, valuesAt_cons]
        by_cases here : t.row = i ∧ t.column = j
        · obtain ⟨rfl, rfl⟩ := here
          simp only [if_neg place]
        · simp [here]

/-- Sorting by place keeps the order of the values at one place. -/
theorem valuesAt_mergeSort (triplets : List (Triplet α)) (i j : Nat) :
    valuesAt (triplets.mergeSort Triplet.notAfter) i j = valuesAt triplets i j := by
  let here : Triplet α → Bool := fun t => t.row = i ∧ t.column = j
  -- The triplets of one place are sorted already, so they are found in order in the sorted list.
  have sorted : Triplet.InOrder (triplets.filter here) := by
    refine List.pairwise_of_forall_mem_list fun t first u second => ?_
    have place : t.row = i ∧ t.column = j := by simpa [here] using (List.mem_filter.mp first).2
    have place' : u.row = i ∧ u.column = j := by simpa [here] using (List.mem_filter.mp second).2
    rw [Triplet.notAfter_iff, place.1, place.2, place'.1, place'.2]
    exact .inr ⟨rfl, Nat.le_refl i⟩
  have inOrder : (triplets.filter here).Sublist (triplets.mergeSort Triplet.notAfter) :=
    List.sublist_mergeSort Triplet.notAfter_trans Triplet.notAfter_total sorted List.filter_sublist
  have selected : (triplets.filter here).Sublist
      ((triplets.mergeSort Triplet.notAfter).filter here) := by
    simpa [List.filter_filter] using inOrder.filter here
  have same : triplets.filter here = (triplets.mergeSort Triplet.notAfter).filter here :=
    selected.eq_of_length
      ((List.mergeSort_perm triplets Triplet.notAfter).filter here).length_eq.symm
  show ((triplets.mergeSort Triplet.notAfter).filter here).map _ = (triplets.filter here).map _
  rw [same]

variable [Add α]

/-- The sum of values from the left; without values there is none. -/
def total? : List α → Option α
  | [] => none
  | first :: rest => some (rest.foldl (· + ·) first)

@[simp] theorem total?_concat (values : List α) (v : α) :
    total? (values ++ [v]) = some ((total? values).elim v (· + v)) := by
  cases values <;> simp [total?]

theorem total?_eq_some_iff {values : List α} {v : α} :
    total? values = some v ↔
      ∃ first rest, values = first :: rest ∧ v = rest.foldl (· + ·) first := by
  cases values with
  | nil => simp [total?]
  | cons first rest => simp [total?, eq_comm]

end Given

section Runs

variable [Add α]

/-- Sum the triplets at the place of a first one as far as they follow it, and so on. -/
def sumRunsFrom (t : Triplet α) : List (Triplet α) → List (Triplet α)
  | [] => [t]
  | u :: rest =>
    if t.row = u.row ∧ t.column = u.column then
      sumRunsFrom { t with value := t.value + u.value } rest
    else t :: sumRunsFrom u rest

/-- Sum each run of triplets at the same place, from the left. -/
def sumRuns : List (Triplet α) → List (Triplet α)
  | [] => []
  | t :: rest => sumRunsFrom t rest

omit [Add α] in
/-- What follows a run comes after it, whatever the values in the run are. -/
theorem inOrder_run {t u : Triplet α} {rest : List (Triplet α)}
    (sorted : Triplet.InOrder (t :: u :: rest)) (v : α) :
    Triplet.InOrder ({ t with value := v } :: rest) := by
  obtain ⟨first, sorted⟩ := List.pairwise_cons.mp sorted
  exact List.pairwise_cons.mpr
    ⟨fun w later => first w (.tail _ later), (List.pairwise_cons.mp sorted).2⟩

omit [Add α] in
/-- After the last triplet of a run, all places are different ones. -/
theorem before_of_inOrder {t u : Triplet α} {rest : List (Triplet α)}
    (sorted : Triplet.InOrder (t :: u :: rest))
    (different : ¬(t.row = u.row ∧ t.column = u.column)) :
    ∀ v ∈ u :: rest, t.Before v := by
  obtain ⟨first, sorted⟩ := List.pairwise_cons.mp sorted
  have next := Triplet.notAfter_iff.mp (first u List.mem_cons_self)
  intro v member
  unfold Triplet.Before
  obtain rfl | later := List.mem_cons.mp member
  · omega
  · have onwards := Triplet.notAfter_iff.mp ((List.pairwise_cons.mp sorted).1 v later)
    omega

theorem mem_sumRunsFrom {t : Triplet α} {rest : List (Triplet α)}
    (sorted : Triplet.InOrder (t :: rest)) {s : Triplet α} :
    s ∈ sumRunsFrom t rest ↔ total? (valuesAt (t :: rest) s.row s.column) = some s.value := by
  induction rest generalizing t with
  | nil =>
      rw [sumRunsFrom, List.mem_singleton, valuesAt_cons]
      obtain ⟨i, j, v⟩ := s
      obtain ⟨row, column, value⟩ := t
      by_cases here : row = i ∧ column = j
      · obtain ⟨rfl, rfl⟩ := here
        simp [valuesAt, total?, eq_comm]
      · simp only [if_neg here]
        refine iff_of_false (fun same => here ?_) nofun
        cases same
        exact ⟨rfl, rfl⟩
  | cons u rest ih =>
      unfold sumRunsFrom
      split
      next same =>
        rw [ih (inOrder_run sorted _)]
        simp only [valuesAt_cons, ← same.1, ← same.2]
        by_cases here : t.row = s.row ∧ t.column = s.column <;> simp [here, total?]
      next different =>
        have after := before_of_inOrder sorted different
        rw [List.mem_cons, ih sorted.of_cons, valuesAt_cons t]
        by_cases here : t.row = s.row ∧ t.column = s.column
        · have none : valuesAt (u :: rest) s.row s.column = [] := by
            refine List.eq_nil_iff_forall_not_mem.mpr fun v given => ?_
            obtain ⟨w, member, row, column⟩ := exists_of_valuesAt given
            have := after w member
            unfold Triplet.Before at this
            omega
          obtain ⟨i, j, v⟩ := s
          obtain ⟨row, column, value⟩ := t
          obtain ⟨rfl, rfl⟩ := here
          simp only at none
          simp [none, total?, eq_comm]
        · rw [if_neg here]
          refine or_iff_right fun same => here ?_
          rw [same]
          exact ⟨rfl, rfl⟩

theorem pairwise_sumRunsFrom {t : Triplet α} {rest : List (Triplet α)}
    (sorted : Triplet.InOrder (t :: rest)) :
    (sumRunsFrom t rest).Pairwise Triplet.Before := by
  induction rest generalizing t with
  | nil => exact List.pairwise_singleton _ _
  | cons u rest ih =>
      unfold sumRunsFrom
      split
      next same => exact ih (inOrder_run sorted _)
      next different =>
        refine List.pairwise_cons.mpr ⟨fun s member => ?_, ih sorted.of_cons⟩
        obtain ⟨v, values, given, -⟩ :=
          total?_eq_some_iff.mp ((mem_sumRunsFrom sorted.of_cons).mp member)
        have inside : v ∈ valuesAt (u :: rest) s.row s.column := given ▸ List.mem_cons_self
        obtain ⟨w, later, row, column⟩ := exists_of_valuesAt inside
        have before := before_of_inOrder sorted different w later
        rwa [Triplet.Before, row, column] at before

/-- The sums of the runs of a sorted list: one for each place where values are given. -/
theorem mem_sumRuns {triplets : List (Triplet α)} (sorted : InOrder triplets) {s : Triplet α} :
    s ∈ sumRuns triplets ↔ total? (valuesAt triplets s.row s.column) = some s.value := by
  cases triplets with
  | nil => simp [sumRuns, valuesAt, total?]
  | cons t rest => exact mem_sumRunsFrom sorted

/-- The sums of the runs of a sorted list are in strict order. -/
theorem pairwise_sumRuns {triplets : List (Triplet α)} (sorted : InOrder triplets) :
    (sumRuns triplets).Pairwise Before := by
  cases triplets with
  | nil => exact .nil
  | cons t rest => exact pairwise_sumRunsFrom sorted

end Runs

end Triplet

namespace Coordinates

variable [Add α]

/-- The triplets sorted by their places, with the values of each place summed in the order in which
they were given. -/
def merged (c : Coordinates α) : List (Triplet α) :=
  Triplet.sumRuns (c.triplets.mergeSort Triplet.notAfter)

variable {c : Coordinates α}

theorem pairwise_merged (c : Coordinates α) : c.merged.Pairwise Triplet.Before :=
  Triplet.pairwise_sumRuns (Triplet.inOrder_mergeSort c.triplets)

theorem mem_merged {t : Triplet α} :
    t ∈ c.merged ↔ Triplet.total? (Triplet.valuesAt c.triplets t.row t.column) = some t.value := by
  rw [merged, Triplet.mem_sumRuns (Triplet.inOrder_mergeSort c.triplets),
    Triplet.valuesAt_mergeSort]

/-- The places of the sums are places of triplets. -/
theorem place_of_mem_merged {t : Triplet α} (member : t ∈ c.merged) :
    ∃ u ∈ c.triplets, u.row = t.row ∧ u.column = t.column := by
  obtain ⟨v, rest, given, -⟩ := Triplet.total?_eq_some_iff.mp (mem_merged.mp member)
  have first : v ∈ Triplet.valuesAt c.triplets t.row t.column := given ▸ List.mem_cons_self
  exact Triplet.exists_of_valuesAt first

theorem inside_of_mem_merged {t : Triplet α} (member : t ∈ c.merged) :
    t.row < c.height ∧ t.column < c.width := by
  obtain ⟨u, given, row, column⟩ := place_of_mem_merged member
  have inside := Triplet.isInside_iff.mp (c.inside u given)
  rwa [row, column] at inside

end Coordinates
end MipModel
