import MipModel.Proofs.FamilyCreation
import MipModel.Proofs.Terms

/-!
# Members by tuple and by pattern

A family answers in two ways. Selection by a pattern compares every tuple of the family with the
pattern, so the pattern of one tuple selects the member that is stored there. A lookup first
compares the length of the tuple with that of the least tuple of the family. Nothing makes the
tuples of a family agree in length, so a lookup can miss a member that a pattern selects; it finds
all of them exactly if the tuples have one length (`lookup_eq_ok_iff_fitting`).
-/

namespace MipModel

namespace Pattern

variable {p : Pattern} {index k : Index}

/-- A tuple agrees with a pattern: it has as many components, and the integers of the pattern where
the pattern has no wildcard. -/
def Agrees (p : Pattern) (index : Index) : Prop :=
  List.Forall₂ (fun c n => c = .wildcard ∨ c = .value n) p index

theorem fits_iff : p.fits index = true ↔ p.Agrees index := by
  unfold Agrees
  induction p generalizing index with
  | nil => cases index <;> simp [fits]
  | cons c p ih =>
      cases index with
      | nil => simp [fits]
      | cons n index => cases c <;> simp [fits, Component.fits, ih]

/-- The pattern of one tuple. -/
theorem fits_exact : (exact index).fits k = true ↔ k = index := by
  rw [fits_iff, Agrees, exact, List.forall₂_map_left_iff]
  simp [List.forall₂_eq_eq_eq, eq_comm]

@[simp] theorem hasWildcard_exact (index : Index) : (exact index).hasWildcard = false := by
  simp [hasWildcard, exact]

theorem index?_exact (index : Index) : (exact index).index? = some index := by
  induction index with
  | nil => rfl
  | cons n index ih =>
      rw [exact] at ih
      simp [exact, index?, Component.value?, ih]

end Pattern

namespace SortedTable

variable {κ β : Type} [DecidableEq κ] [LT κ] [DecidableLT κ]

/-- A key has the value of the last association with it. -/
theorem find?_ofList (associations : List (κ × β)) (k : κ) :
    (ofList associations).find? k =
      (associations.reverse.find? fun e => e.1 = k).map Prod.snd := by
  induction associations using List.reverseRecOn with
  | nil => rfl
  | append_singleton earlier last ih =>
      rw [ofList, List.foldl_concat, List.reverse_concat, List.find?_cons]
      by_cases same : last.1 = k
      · rw [← same, find?_insert_self, decide_eq_true rfl]
        rfl
      · rw [find?_insert_of_ne (Ne.symm same), decide_eq_false same]
        exact ih

theorem find?_ofList_eq_some_iff {associations : List (κ × β)} {k : κ} {v : β} :
    (ofList associations).find? k = some v ↔
      associations.reverse.find? (fun e => e.1 = k) = some (k, v) := by
  rw [find?_ofList, Option.map_eq_some_iff]
  constructor
  · rintro ⟨⟨k', v'⟩, found, rfl⟩
    obtain rfl : k' = k := by simpa using List.find?_some found
    exact found
  · intro found
    exact ⟨(k, v), found, rfl⟩

theorem ordered_ofList [IsStrictTotalOrder κ (· < ·)] (associations : List (κ × β)) :
    (ofList associations).Ordered := by
  induction associations using List.reverseRecOn with
  | nil => exact List.Pairwise.nil
  | append_singleton earlier last ih =>
      rw [ofList, List.foldl_concat]
      exact ih.insert last.1 last.2

omit [DecidableLT κ] in
/-- A key has at most one entry. -/
theorem Ordered.filter_key [IsStrictTotalOrder κ (· < ·)] {t : SortedTable κ β} (h : t.Ordered)
    (k : κ) : t.entries.filter (fun e => e.1 = k) = ((t.find? k).map fun v => (k, v)).toList := by
  obtain ⟨entries⟩ := t
  induction entries with
  | nil => rfl
  | cons e rest ih =>
      obtain ⟨below, rest'⟩ := List.pairwise_cons.mp h
      rw [find?_cons, List.filter_cons]
      by_cases same : e.1 = k
      · have single : rest.filter (fun e => e.1 = k) = [] := by
          refine List.filter_eq_nil_iff.mpr fun e' later equal => ?_
          have less := below e'.1 (List.mem_map_of_mem later)
          rw [of_decide_eq_true equal, same] at less
          exact irrefl_of (· < ·) k less
        simp [same, single, Prod.ext_iff]
      · simpa [same] using ih rest'

end SortedTable

namespace Family

variable {α : Type} {f : Family α} {index k : Index} {p : Polynomial α}

/-- The family of a list of members, with further members put in one after another. -/
def built (name : String) (members later : List (Index × Polynomial α)) : Family α :=
  later.foldl (fun f e => f.insert e.1 e.2) (.ofList name members)

/-- It does not matter which members come from the list. -/
theorem built_eq_ofList (name : String) (members later : List (Index × Polynomial α)) :
    built name members later = .ofList name (members ++ later) := by
  induction later using List.reverseRecOn with
  | nil => rw [List.append_nil]; rfl
  | append_singleton earlier last ih =>
      rw [built, List.foldl_concat, ← built, ih, ← List.append_assoc, ofList, ofList, insert,
        SortedTable.ofList, SortedTable.ofList, List.foldl_concat]

/-- The pattern of one tuple selects what is stored there. -/
theorem fitting_exact (ordered : f.members.Ordered) (index : Index) :
    f.fitting (.exact index) = ((f.members.find? index).map fun p => (index, p)).toList := by
  rw [← ordered.filter_key, fitting, toList]
  refine List.filter_congr fun e _ => ?_
  rw [Bool.eq_iff_iff, Pattern.fits_exact, decide_eq_true_iff]

theorem fitting_exact_eq_singleton (ordered : f.members.Ordered) :
    f.fitting (.exact index) = [(index, p)] ↔ f.members.find? index = some p := by
  rw [fitting_exact ordered]
  cases f.members.find? index <;> simp

/-- The least tuple is one of the tuples. -/
theorem exists_arity_of_find? (stored : f.members.find? index = some p) :
    ∃ least ∈ f.members.keys, f.arity? = some least.length := by
  have member : index ∈ f.members.keys :=
    SortedTable.contains_iff.mp (Option.isSome_iff_exists.mpr ⟨p, stored⟩)
  obtain ⟨least, first⟩ := Option.isSome_iff_exists.mp
    (List.isSome_head?.mpr (List.ne_nil_of_mem member))
  exact ⟨least, List.mem_of_mem_head? first, by rw [arity?, first, Option.map_some]⟩

/-- What a lookup does at a tuple with a member. -/
theorem lookup_of_find? {n : Nat} (stored : f.members.find? index = some p)
    (arity : f.arity? = some n) :
    f.lookup index =
      if n = index.length then .ok p else .error (.arityMismatch f.name n index.length) := by
  rw [lookup, arity]
  by_cases same : n = index.length
  · simp [same, lookup.find, stored]
  · simp [same]

/-- What a lookup finds is stored. -/
theorem find?_of_lookup (found : f.lookup index = .ok p) : f.members.find? index = some p := by
  have direct : lookup.find f index = .ok p := by
    rw [lookup] at found
    split at found
    · split at found
      · cases found
      · exact found
    · exact found
  rw [lookup.find] at direct
  cases stored : f.members.find? index with
  | none => rw [stored] at direct; cases direct
  | some q => rw [stored] at direct; exact congrArg some (Except.ok.inj direct)

/-- A lookup finds what is stored at a tuple that is as long as the least one. -/
theorem lookup_eq_ok_iff :
    f.lookup index = .ok p ↔ f.members.find? index = some p ∧ f.arity? = some index.length := by
  constructor
  · intro found
    have stored := find?_of_lookup found
    obtain ⟨least, -, arity⟩ := exists_arity_of_find? stored
    refine ⟨stored, ?_⟩
    rw [lookup_of_find? stored arity] at found
    by_cases same : least.length = index.length
    · rw [arity, same]
    · rw [if_neg same] at found
      cases found
  · rintro ⟨stored, arity⟩
    rw [lookup_of_find? stored arity, if_pos rfl]

/-- The tuples have one length exactly if the least one is as long as each of them. -/
theorem uniform_iff_arity : (∀ k ∈ f.members.keys, ∀ k' ∈ f.members.keys, k.length = k'.length) ↔
    ∀ index p, f.members.find? index = some p → f.arity? = some index.length := by
  constructor
  · intro uniform index p stored
    obtain ⟨least, member, arity⟩ := exists_arity_of_find? stored
    have here : index ∈ f.members.keys :=
      SortedTable.contains_iff.mp (Option.isSome_iff_exists.mpr ⟨p, stored⟩)
    rw [arity, uniform least member index here]
  · intro each k member k' member'
    obtain ⟨p, stored⟩ := Option.isSome_iff_exists.mp (SortedTable.contains_iff.mpr member)
    obtain ⟨p', stored'⟩ := Option.isSome_iff_exists.mp (SortedTable.contains_iff.mpr member')
    exact Option.some.inj ((each k p stored).symm.trans (each k' p' stored'))

/-- In a family that is made by putting in members, one after another, the pattern of a tuple
selects the member that was put there last. A lookup finds it if the least tuple of the family is as
long, and reports the length of that tuple otherwise. So the two agree on all tuples exactly if the
tuples of the family have one length. -/
theorem lookup_eq_ok_iff_fitting (name : String) (members later : List (Index × Polynomial α)) :
    let f := built name members later
    (∀ index p, f.fitting (.exact index) = [(index, p)] ↔
      (members ++ later).reverse.find? (fun e => e.1 = index) = some (index, p)) ∧
    (∀ index p, f.lookup index = .ok p ↔
      f.fitting (.exact index) = [(index, p)] ∧ f.arity? = some index.length) ∧
    (∀ index p n, f.fitting (.exact index) = [(index, p)] → f.arity? = some n →
      n ≠ index.length → f.lookup index = .error (.arityMismatch name n index.length)) ∧
    ((∀ index p, f.lookup index = .ok p ↔ f.fitting (.exact index) = [(index, p)]) ↔
      ∀ k ∈ f.members.keys, ∀ k' ∈ f.members.keys, k.length = k'.length) := by
  intro f
  have made : f = .ofList name (members ++ later) := built_eq_ofList name members later
  have ordered : f.members.Ordered := made ▸ SortedTable.ordered_ofList (members ++ later)
  refine ⟨fun index p => ?_, fun index p => ?_, fun index p n selected arity different => ?_, ?_⟩
  · rw [fitting_exact_eq_singleton ordered, made]
    exact SortedTable.find?_ofList_eq_some_iff
  · rw [fitting_exact_eq_singleton ordered, lookup_eq_ok_iff]
  · rw [fitting_exact_eq_singleton ordered] at selected
    rw [lookup_of_find? selected arity, if_neg different, made]
    rfl
  · rw [uniform_iff_arity]
    refine forall₂_congr fun index p => ?_
    rw [fitting_exact_eq_singleton ordered, lookup_eq_ok_iff, and_iff_left_iff_imp]

/-- A member that is put in a second time replaces the first one, for the pattern and the lookup. -/
theorem replaced_member_found :
    let x : Polynomial Float := .var "x"
    let y : Polynomial Float := .var "y"
    let f := built "f" [([1], x), ([2], x)] [([2], y)]
    f.fitting (.exact [2]) = [([2], y)] ∧ f.lookup [2] = .ok y := by
  intro x y f
  obtain ⟨put, -, -, agree⟩ := lookup_eq_ok_iff_fitting "f" [([1], x), ([2], x)] [([2], y)]
  have selected : f.fitting (.exact [2]) = [([2], y)] := (put [2] y).mpr (by decide +kernel)
  have uniform : ∀ k ∈ f.members.keys, ∀ k' ∈ f.members.keys, k.length = k'.length := by
    decide +kernel
  exact ⟨selected, (agree.mpr uniform [2] y).mpr selected⟩

end Family

section Mixed

/-- A model accepts a family with tuples of two lengths. A wildcard selects the member at the longer
one, and a reference to that member fails. -/
theorem selected_member_not_found :
    let x : Polynomial Float := .var "x"
    let y : Polynomial Float := .var "y"
    let f : Family Float := .built "f" [([], x), ([1], y)] []
    let m : Model Float := .build .minimize .standard
      [.registerAs "x" .free, .registerAs "y" .free, .defineFamily f]
    m.Reachable ∧ m.families.find? "f" = some f ∧ f.members.find? [1] = some y ∧
      f.fitting (.exact [1]) = [([1], y)] ∧
      (Expr.var "f" [.wildcard]).evaluate m.families .empty = .ok y ∧
      f.lookup [1] = .error (.arityMismatch "f" 0 1) ∧
      (Expr.var "f" [.literal 1]).evaluate m.families .empty = .error (.arityMismatch "f" 0 1) := by
  intro x y f m
  exact ⟨Model.reachable_build _ _ _, by decide +kernel, by decide +kernel, by decide +kernel,
    by decide +kernel, by decide +kernel, by decide +kernel⟩

end Mixed

end MipModel
