import MipModel.Conic.Insertion
import MipModel.Proofs.Compression

/-!
# Insertion compresses

Compression by insertion is relied on rightly (`lawful_of_insertion`). What it stores at a place is
the sum, from the left, of the values given for the place, since inserting a triplet adds its value
to the sum at its place (`stored?_addTriplet`). Columns ascend throughout, so the stored triplets
are in strict order. Sorting and summing runs leads to a list with the same members in the same
order, so both lists are equal, and offsets are counted alike.
-/

namespace MipModel.Insertion

variable {α : Type}

section Columns

def Ascending (column : List (Nat × α)) : Prop := column.Pairwise fun e e' => e.1 < e'.1

def inRow? (column : List (Nat × α)) (i : Nat) : Option α :=
  (column.find? fun e => e.1 = i).map Prod.snd

@[simp] theorem inRow?_cons (e : Nat × α) (column : List (Nat × α)) (i : Nat) :
    inRow? (e :: column) i = if e.1 = i then some e.2 else inRow? column i := by
  by_cases here : e.1 = i <;> simp [inRow?, here]

variable {column : List (Nat × α)}

theorem inRow?_eq_none {i : Nat} (h : ∀ e ∈ column, i < e.1) : inRow? column i = none := by
  rw [inRow?, Option.map_eq_none_iff, List.find?_eq_none]
  intro e member
  simpa using (h e member).ne'

/-- A column whose rows ascend stores one value in a row. -/
theorem mem_iff_inRow? (ascending : Ascending column) {i : Nat} {v : α} :
    (i, v) ∈ column ↔ inRow? column i = some v := by
  induction column with
  | nil => simp [inRow?]
  | cons e column ih =>
      obtain ⟨least, ascending⟩ := List.pairwise_cons.mp ascending
      rw [List.mem_cons, inRow?_cons, ih ascending]
      by_cases here : e.1 = i
      · subst here
        rw [if_pos rfl, inRow?_eq_none least]
        simp [Prod.ext_iff, eq_comm]
      · rw [if_neg here]
        refine or_iff_right fun same => here ?_
        rw [← same]

variable [Add α] (row : Nat) (value : α)

theorem mem_addToColumn {row : Nat} {value : α} {e : Nat × α}
    (h : e ∈ addToColumn row value column) : e.1 = row ∨ e ∈ column := by
  induction column with
  | nil =>
      cases List.mem_singleton.mp h
      exact .inl rfl
  | cons e' rest ih =>
      unfold addToColumn at h
      split at h
      next =>
        obtain rfl | older := List.mem_cons.mp h
        · exact .inl rfl
        · exact .inr older
      next =>
        split at h
        next =>
          obtain rfl | older := List.mem_cons.mp h
          · exact .inl rfl
          · exact .inr (.tail _ older)
        next =>
          obtain rfl | later := List.mem_cons.mp h
          · exact .inr (.head _)
          · exact (ih later).imp_right (.tail _)

theorem ascending_addToColumn (ascending : Ascending column) :
    Ascending (addToColumn row value column) := by
  induction column with
  | nil => exact List.pairwise_singleton _ _
  | cons e rest ih =>
      obtain ⟨least, ascending'⟩ := List.pairwise_cons.mp ascending
      unfold addToColumn
      split
      next before =>
        refine List.pairwise_cons.mpr ⟨fun e' member => ?_, ascending⟩
        obtain rfl | later := List.mem_cons.mp member
        · exact before
        · exact before.trans (least e' later)
      next =>
        split
        next same =>
          exact List.pairwise_cons.mpr ⟨fun e' later => same ▸ least e' later, ascending'⟩
        next =>
          refine List.pairwise_cons.mpr ⟨fun e' member => ?_, ih ascending'⟩
          obtain same | later := mem_addToColumn member
          · omega
          · exact least e' later

theorem inRow?_addToColumn (ascending : Ascending column) (i : Nat) :
    inRow? (addToColumn row value column) i =
      if row = i then some ((inRow? column i).elim value (· + value)) else inRow? column i := by
  induction column with
  | nil => simp [addToColumn, inRow?]
  | cons e rest ih =>
      obtain ⟨least, ascending'⟩ := List.pairwise_cons.mp ascending
      unfold addToColumn
      split
      next before =>
        have absent : inRow? (e :: rest) row = none := by
          refine inRow?_eq_none fun e' member => ?_
          obtain rfl | later := List.mem_cons.mp member
          · exact before
          · exact before.trans (least e' later)
        rw [inRow?_cons]
        by_cases here : row = i
        · subst here
          simp [absent]
        · simp [here]
      next =>
        split
        next same =>
          subst same
          by_cases here : e.1 = i <;> simp [here]
        next different =>
          rw [inRow?_cons, inRow?_cons, ih ascending']
          by_cases here : e.1 = i
          · have other : row ≠ i := fun same => different (same.trans here.symm)
            simp [here, other]
          · simp [here]

end Columns

section Places

variable [Add α]

def stored? (columns : List (List (Nat × α))) (i j : Nat) : Option α :=
  inRow? (columns.getD j []) i

/-- Insert triplets one after another into empty columns. -/
def inserted (width : Nat) (triplets : List (Triplet α)) : List (List (Nat × α)) :=
  triplets.foldl addTriplet (List.replicate width [])

@[simp] theorem inserted_concat (width : Nat) (triplets : List (Triplet α)) (t : Triplet α) :
    inserted width (triplets ++ [t]) = addTriplet (inserted width triplets) t :=
  List.foldl_concat ..

@[simp] theorem length_inserted (width : Nat) (triplets : List (Triplet α)) :
    (inserted width triplets).length = width := by
  induction triplets using List.reverseRecOn with
  | nil => exact List.length_replicate
  | append_singleton triplets t ih => simp [addTriplet, ih]

theorem ascending_inserted (width : Nat) (triplets : List (Triplet α)) :
    ∀ column ∈ inserted width triplets, Ascending column := by
  induction triplets using List.reverseRecOn with
  | nil =>
      intro column member
      rw [List.eq_of_mem_replicate member]
      exact .nil
  | append_singleton triplets t ih =>
      intro column member
      rw [inserted_concat, addTriplet] at member
      obtain ⟨j, here⟩ := List.mem_iff_getElem?.mp member
      rw [List.getElem?_modify] at here
      obtain ⟨before, stored, rfl⟩ := Option.map_eq_some_iff.mp here
      have earlier := ih before (List.mem_of_getElem? stored)
      split
      · exact ascending_addToColumn _ _ earlier
      · exact earlier

/-- A triplet adds its value to what is stored at its place. -/
theorem stored?_addTriplet {columns : List (List (Nat × α))}
    (ascending : ∀ column ∈ columns, Ascending column) {t : Triplet α}
    (inside : t.column < columns.length) (i j : Nat) :
    stored? (addTriplet columns t) i j =
      if t.row = i ∧ t.column = j then some ((stored? columns i j).elim t.value (· + t.value))
      else stored? columns i j := by
  rw [addTriplet, stored?, stored?, List.getD_eq_getElem?_getD, List.getD_eq_getElem?_getD,
    List.getElem?_modify]
  by_cases here : t.column = j
  · subst here
    have above := ascending _ (List.getElem_mem inside)
    simp [List.getElem?_eq_getElem inside, inRow?_addToColumn _ _ above]
  · simp [here]

/-- At a place the sum of the values given for it is stored. -/
theorem stored?_inserted {width : Nat} {triplets : List (Triplet α)}
    (inside : ∀ t ∈ triplets, t.column < width) (i j : Nat) :
    stored? (inserted width triplets) i j = Triplet.total? (Triplet.valuesAt triplets i j) := by
  induction triplets using List.reverseRecOn with
  | nil => simp [inserted, stored?, Triplet.valuesAt, Triplet.total?, inRow?]
  | append_singleton triplets t ih =>
      obtain ⟨earlier, last⟩ := List.forall_mem_append.mp inside
      have fits : t.column < (inserted width triplets).length := by
        simpa using last t List.mem_cons_self
      rw [inserted_concat, stored?_addTriplet (ascending_inserted width triplets) fits,
        ih earlier, Triplet.valuesAt_concat]
      split <;> simp

end Places

section Joining

/-- The triplets of columns that are counted from a number on. -/
def tripletsFrom (n : Nat) (columns : List (List (Nat × α))) : List (Triplet α) :=
  (columns.zipIdx n).flatMap fun c => c.1.map fun e => ⟨e.1, c.2, e.2⟩

theorem tripletsFrom_cons (n : Nat) (column : List (Nat × α)) (columns : List (List (Nat × α))) :
    tripletsFrom n (column :: columns) =
      (column.map fun e => ⟨e.1, n, e.2⟩) ++ tripletsFrom (n + 1) columns := by
  rw [tripletsFrom, List.zipIdx_cons, List.flatMap_cons]
  rfl

theorem mem_tripletsFrom_zero {columns : List (List (Nat × α))} {t : Triplet α} :
    t ∈ tripletsFrom 0 columns ↔
      ∃ column, columns[t.column]? = some column ∧ (t.row, t.value) ∈ column := by
  simp only [tripletsFrom, List.mem_flatMap, List.mem_map, Prod.exists,
    List.mem_zipIdx_iff_getElem?]
  constructor
  · rintro ⟨column, j, here, i, v, member, rfl⟩
    exact ⟨column, here, member⟩
  · rintro ⟨column, here, member⟩
    exact ⟨column, t.column, here, t.row, t.value, member, rfl⟩

theorem column_of_mem_tripletsFrom {n : Nat} {columns : List (List (Nat × α))} {t : Triplet α}
    (member : t ∈ tripletsFrom n columns) : n ≤ t.column := by
  obtain ⟨⟨column, j⟩, place, inside⟩ := List.mem_flatMap.mp member
  obtain ⟨e, -, rfl⟩ := List.mem_map.mp inside
  exact List.le_snd_of_mem_zipIdx place

theorem pairwise_tripletsFrom {columns : List (List (Nat × α))}
    (ascending : ∀ column ∈ columns, Ascending column) (n : Nat) :
    (tripletsFrom n columns).Pairwise Triplet.Before := by
  induction columns generalizing n with
  | nil => exact .nil
  | cons column columns ih =>
      obtain ⟨first, rest⟩ := List.forall_mem_cons.mp ascending
      rw [tripletsFrom_cons, List.pairwise_append]
      refine ⟨?_, ih rest (n + 1), fun t member u later => .inl ?_⟩
      · rw [List.pairwise_map]
        exact first.imp fun above => .inr ⟨rfl, above⟩
      · obtain ⟨e, -, rfl⟩ := List.mem_map.mp member
        exact column_of_mem_tripletsFrom later

theorem map_tripletsFrom (n : Nat) (columns : List (List (Nat × α))) :
    ((tripletsFrom n columns).map fun t => (t.row, t.value)) = columns.flatten := by
  induction columns generalizing n with
  | nil => rfl
  | cons column columns ih =>
      rw [tripletsFrom_cons, List.map_append, ih, List.flatten_cons, List.map_map]
      exact congrArg (· ++ columns.flatten) (List.map_id column)

/-- A column begins behind all triplets of the columns before it. -/
theorem offsetsFrom_eq (start n : Nat) (columns : List (List (Nat × α))) :
    offsetsFrom start columns = (List.range (columns.length + 1)).map fun j =>
      start + (tripletsFrom n columns).countP fun t => t.column < n + j := by
  induction columns generalizing start n with
  | nil => simp [offsetsFrom, tripletsFrom]
  | cons column columns ih =>
      have first : (tripletsFrom n (column :: columns)).countP (fun t => t.column < n + 0) = 0 := by
        refine List.countP_eq_zero.mpr fun t member => ?_
        simpa using column_of_mem_tripletsFrom member
      have later : ∀ j, (tripletsFrom n (column :: columns)).countP
            (fun t => t.column < n + (j + 1)) =
          column.length + (tripletsFrom (n + 1) columns).countP
            fun t => t.column < n + 1 + j := by
        intro j
        have all : (column.map fun e => (⟨e.1, n, e.2⟩ : Triplet α)).countP
            (fun t => t.column < n + (j + 1)) = column.length := by
          rw [List.countP_eq_length.mpr, List.length_map]
          intro t member
          obtain ⟨e, -, rfl⟩ := List.mem_map.mp member
          simp
        rw [tripletsFrom_cons, List.countP_append, all, Nat.add_right_comm n 1 j, Nat.add_assoc]
      rw [offsetsFrom, ih _ (n + 1), List.length_cons,
        @List.range_succ_eq_map (columns.length + 1), List.map_cons, List.map_map, first,
        Nat.add_zero]
      refine congrArg _ (List.map_congr_left fun j _ => ?_)
      rw [Function.comp_apply, later, Nat.add_assoc]

end Joining

variable [Add α]

/-- Sorting and summing runs leads to the triplets that have been inserted. -/
theorem tripletsFrom_columnsOf (c : Coordinates α) : tripletsFrom 0 (columnsOf c) = c.merged := by
  have ascending := ascending_inserted c.width c.triplets
  have inside : ∀ t ∈ c.triplets, t.column < c.width := fun t member =>
    (Triplet.isInside_iff.mp (c.inside t member)).2
  refine (pairwise_tripletsFrom ascending 0).eq_of_mem_iff c.pairwise_merged fun t => ?_
  rw [Coordinates.mem_merged, ← stored?_inserted inside, mem_tripletsFrom_zero, stored?,
    List.getD_eq_getElem?_getD]
  show (∃ column, (inserted c.width c.triplets)[t.column]? = some column ∧ _) ↔ _
  cases here : (inserted c.width c.triplets)[t.column]? with
  | none => simp [inRow?]
  | some column =>
      simp only [Option.some.injEq, exists_eq_left', Option.getD_some]
      exact mem_iff_inRow? (ascending column (List.mem_of_getElem? here))

/-- Insertion brings triplets into compressed form as compression is relied on to do. -/
theorem compresses_compress (c : Coordinates α) :
    (compress c).Compresses c.height c.width c.merged := by
  have joined : (columnsOf c).flatten = c.merged.map fun t => (t.row, t.value) := by
    rw [← tripletsFrom_columnsOf, map_tripletsFrom]
  have length : (columnsOf c).length = c.width := length_inserted c.width c.triplets
  exact {
    height := rfl
    rows := (congrArg (List.map Prod.fst) joined).trans (List.map_map ..)
    values := (congrArg (List.map Prod.snd) joined).trans (List.map_map ..)
    offsets := by
      rw [compress, offsetsFrom_eq 0 0, length, tripletsFrom_columnsOf]
      simp only [Nat.zero_add] }

theorem lawful_float : Compression.Lawful Float := ⟨compresses_compress⟩

instance instCompressionRat : Compression Rat := ⟨compress⟩

theorem lawful_rat : Compression.Lawful Rat := ⟨compresses_compress⟩

end MipModel.Insertion
