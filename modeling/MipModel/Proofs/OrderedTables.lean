import Mathlib
import MipModel.Scalar.Rational
import MipModel.Table.Sorted

/-!
# Tables in order

The operations on sorted tables keep the keys strictly ascending. A key then has one entry, so that
an erased or replaced entry is gone for good; sums over the entries change by exactly the entry in
question.
-/

namespace MipModel

namespace SortedTable

variable {κ β : Type}

def Ordered [LT κ] (t : SortedTable κ β) : Prop := t.keys.Pairwise (· < ·)

section Keys

variable [DecidableEq κ]

theorem contains_iff {t : SortedTable κ β} {k : κ} : t.contains k = true ↔ k ∈ t.keys := by
  simp [contains, find?, keys, List.find?_isSome]

/-- A change of the values in a table changes the value that a key finds. -/
theorem find?_map_values {γ : Type} (f : β → γ) (entries : List (κ × β)) (k : κ) :
    find? ⟨entries.map fun e => (e.1, f e.2)⟩ k = (find? ⟨entries⟩ k).map f := by
  simp only [find?, List.find?_map, Option.map_map, Function.comp_def]

variable [LT κ] [DecidableLT κ]

@[simp] theorem mem_keys_insert {t : SortedTable κ β} {k x : κ} {v : β} :
    x ∈ (t.insert k v).keys ↔ x = k ∨ x ∈ t.keys := by
  rw [← contains_iff, ← contains_iff, contains, contains]
  by_cases same : x = k
  · simp [same]
  · simp [same]

/-- The keys of a table are those of the associations that it is made of. -/
@[simp] theorem mem_keys_ofList {associations : List (κ × β)} {x : κ} :
    x ∈ (ofList associations).keys ↔ x ∈ associations.map Prod.fst := by
  have fold : ∀ t : SortedTable κ β, x ∈ (associations.foldl (fun t e => t.insert e.1 e.2) t).keys ↔
      x ∈ t.keys ∨ x ∈ associations.map Prod.fst := by
    induction associations with
    | nil => simp
    | cons e rest ih =>
        intro t
        rw [List.foldl_cons, ih, mem_keys_insert, List.map_cons, List.mem_cons, or_left_comm,
          or_assoc]
  exact (fold empty).trans (or_iff_right List.not_mem_nil)

end Keys

section Order

variable [DecidableEq κ] [LT κ] [DecidableLT κ] {k : κ} {v : β} {entries : List (κ × β)}

theorem mem_insertEntry {e : κ × β} (h : e ∈ insertEntry k v entries) :
    e = (k, v) ∨ e ∈ entries := by
  induction entries with
  | nil => exact .inl (by simpa [insertEntry] using h)
  | cons e' rest ih =>
      unfold insertEntry at h
      split at h
      · obtain rfl | later := List.mem_cons.mp h
        · exact .inl rfl
        · exact .inr (List.mem_cons_of_mem _ later)
      · split at h
        · exact List.mem_cons.mp h
        · obtain rfl | later := List.mem_cons.mp h
          · exact .inr List.mem_cons_self
          · exact (ih later).imp_right (List.mem_cons_of_mem _)

theorem mem_keys_insertEntry {x : κ} (h : x ∈ (insertEntry k v entries).map Prod.fst) :
    x = k ∨ x ∈ entries.map Prod.fst := by
  obtain ⟨e, member, rfl⟩ := List.mem_map.mp h
  obtain rfl | earlier := mem_insertEntry member
  · exact .inl rfl
  · exact .inr (List.mem_map_of_mem earlier)

theorem Ordered.insert [IsStrictTotalOrder κ (· < ·)] {t : SortedTable κ β} (h : t.Ordered)
    (k : κ) (v : β) : (t.insert k v).Ordered := by
  obtain ⟨entries⟩ := t
  show ((insertEntry k v entries).map Prod.fst).Pairwise (· < ·)
  change (entries.map Prod.fst).Pairwise (· < ·) at h
  induction entries with
  | nil => exact List.pairwise_singleton _ _
  | cons e rest ih =>
      obtain ⟨below, rest'⟩ := List.pairwise_cons.mp h
      unfold insertEntry
      split
      next same =>
        subst same
        exact h
      next different =>
        split
        next less =>
          refine List.pairwise_cons.mpr ⟨?_, h⟩
          intro x hx
          obtain rfl | later := List.mem_cons.mp hx
          · exact less
          · exact trans_of (· < ·) less (below x later)
        next notLess =>
          refine List.pairwise_cons.mpr ⟨?_, ih rest'⟩
          intro x hx
          obtain rfl | earlier := mem_keys_insertEntry hx
          · exact ((trichotomous_of (· < ·) x e.1).resolve_left notLess).resolve_left different
          · exact below x earlier

omit [DecidableLT κ] in
theorem Ordered.erase {t : SortedTable κ β} (h : t.Ordered) (k : κ) : (t.erase k).Ordered :=
  List.Pairwise.sublist (List.filter_sublist.map _) h

omit [DecidableEq κ] [DecidableLT κ] in
/-- Two tables with the same entries are the same. -/
theorem Ordered.ext [IsStrictTotalOrder κ (· < ·)] {t t' : SortedTable κ β} (h : t.Ordered)
    (h' : t'.Ordered) (same : ∀ e, e ∈ t.entries ↔ e ∈ t'.entries) : t = t' := by
  have sorted {t : SortedTable κ β} (h : t.Ordered) :
      t.entries.Pairwise fun e e' => e.1 < e'.1 := List.pairwise_map.mp h
  have nodup {t : SortedTable κ β} (h : t.Ordered) : t.entries.Nodup :=
    (sorted h).imp fun {e e'} less (equal : e = e') => irrefl_of (· < ·) e.1 (equal ▸ less)
  have perm := (List.perm_ext_iff_of_nodup (nodup h) (nodup h')).mpr same
  have entries : t.entries = t'.entries := perm.eq_of_pairwise
    (fun a b _ _ less more => absurd more (asymm_of (· < ·) less)) (sorted h) (sorted h')
  cases t
  cases t'
  exact congrArg mk entries

omit [DecidableLT κ] in
/-- The value of a key is the one that it is stored with. -/
theorem Ordered.find?_eq_some_iff [IsStrictTotalOrder κ (· < ·)] {t : SortedTable κ β}
    (h : t.Ordered) : t.find? k = some v ↔ (k, v) ∈ t.entries := by
  obtain ⟨entries⟩ := t
  induction entries with
  | nil => simp [find?]
  | cons e rest ih =>
      obtain ⟨below, rest'⟩ := List.pairwise_cons.mp h
      rw [find?_cons]
      split
      next same =>
        subst same
        refine ⟨fun found => ?_, fun member => ?_⟩
        · cases found
          exact List.mem_cons_self
        · obtain first | later := List.mem_cons.mp member
          · rw [← first]
          · exact absurd (below _ (List.mem_map_of_mem later)) (irrefl_of (· < ·) e.1)
      next different =>
        rw [ih rest', List.mem_cons, or_iff_right]
        rintro rfl
        exact different rfl

end Order

def total (weigh : κ × β → Rat) (t : SortedTable κ β) : Rat := (t.entries.map weigh).sum

section Total

variable [DecidableEq κ] {t : SortedTable κ β}

/-- An absent key contributes nothing, so erasing it changes nothing. -/
theorem erase_of_notMem {k : κ} (h : k ∉ t.keys) : t.erase k = t := by
  obtain ⟨entries⟩ := t
  simp only [erase, SortedTable.mk.injEq, List.filter_eq_self, decide_eq_true_eq]
  rintro e he rfl
  exact h (List.mem_map_of_mem he)

variable [LT κ] [DecidableLT κ]

theorem erase_insert (t : SortedTable κ β) (k : κ) (v : β) :
    (t.insert k v).erase k = t.erase k := by
  obtain ⟨entries⟩ := t
  simp only [erase, insert, SortedTable.mk.injEq]
  induction entries with
  | nil => simp [insertEntry]
  | cons e rest ih =>
      unfold insertEntry
      split
      next same => simp [same]
      next different =>
        split
        · simp
        · rw [List.filter_cons, List.filter_cons, ih]

variable [IsStrictTotalOrder κ (· < ·)]

omit [DecidableLT κ] in
theorem total_erase (weigh : κ × β → Rat) (h : t.Ordered) (k : κ) :
    (t.erase k).total weigh + ((t.find? k).map fun v => weigh (k, v)).getD 0 = t.total weigh := by
  obtain ⟨entries⟩ := t
  induction entries with
  | nil => simp [total, erase, find?]
  | cons e rest ih =>
      obtain ⟨below, rest'⟩ := List.pairwise_cons.mp h
      by_cases same : e.1 = k
      · have absent : k ∉ keys ⟨rest⟩ := by
          intro member
          exact irrefl_of (· < ·) k (same ▸ below k member)
        have erased : erase ⟨e :: rest⟩ k = ⟨rest⟩ := by
          have := erase_of_notMem absent
          simp only [erase, SortedTable.mk.injEq] at this ⊢
          rw [List.filter_cons_of_neg (by simp [same]), this]
        rw [erased, find?_cons, if_pos same]
        simp only [total, List.map_cons, List.sum_cons, Option.map_some, Option.getD_some, ← same]
        ring
      · have erased : erase ⟨e :: rest⟩ k = ⟨e :: (erase ⟨rest⟩ k).entries⟩ := by
          simp [erase, same]
        rw [erased, find?_cons, if_neg same]
        have := ih rest'
        simp only [total, List.map_cons, List.sum_cons] at this ⊢
        rw [← this]
        ring

theorem total_insert (weigh : κ × β → Rat) (h : t.Ordered) (k : κ) (v : β) :
    (t.insert k v).total weigh = (t.erase k).total weigh + weigh (k, v) := by
  rw [← total_erase weigh (h.insert k v) k, find?_insert_self, erase_insert]
  rfl

end Total

end SortedTable

end MipModel
