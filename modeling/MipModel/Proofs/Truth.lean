import MipModel.Proofs.Rows

/-!
# Truth values in rows

For numbers that are zero or one, the rows of a conjunction and of a disjunction leave exactly the
truth value as a solution, and the rows of a segment say everything about its value when the switch
is on, and next to nothing when it is off. Each statement is an equivalence: from left to right it
is what the rows enforce, from right to left it says that they cut nothing off.
-/

namespace MipModel

namespace Binary

variable {xs : List Rat}

theorem nonneg (h : Binary xs) : ∀ x ∈ xs, 0 ≤ x := by
  intro x member
  obtain rfl | rfl := h x member
  · exact le_rfl
  · exact zero_le_one

theorem le_one (h : Binary xs) : ∀ x ∈ xs, x ≤ 1 := by
  intro x member
  obtain rfl | rfl := h x member
  · exact zero_le_one
  · exact le_rfl

theorem zero_mem (h : Binary xs) (other : ¬∀ x ∈ xs, x = 1) : 0 ∈ xs := by
  push Not at other
  obtain ⟨x, member, different⟩ := other
  obtain rfl := (h x member).resolve_right different
  exact member

theorem eq_zero (h : Binary xs) (none : ¬∃ x ∈ xs, x = 1) : ∀ x ∈ xs, x = 0 := by
  intro x member
  exact (h x member).resolve_right fun one => none ⟨x, member, one⟩

theorem sum_le_length (h : Binary xs) : xs.sum ≤ xs.length := by
  have := List.sum_le_card_nsmul xs 1 h.le_one
  simpa using this

theorem sum_le_of_zero_mem (h : Binary xs) (zero : 0 ∈ xs) : xs.sum ≤ xs.length - 1 := by
  obtain ⟨before, after, rfl⟩ := List.append_of_mem zero
  have first : Binary before := fun x member => h x (List.mem_append_left _ member)
  have second : Binary after := fun x member =>
    h x (List.mem_append_right _ (List.mem_cons_of_mem _ member))
  have := first.sum_le_length
  have := second.sum_le_length
  simp only [List.sum_append, List.sum_cons, List.length_append, List.length_cons, Nat.cast_add,
    Nat.cast_one]
  linarith

/-- If truth values add up to one, then one of them is one. -/
theorem one_mem (h : Binary xs) (sum : xs.sum = 1) : 1 ∈ xs := by
  by_contra absent
  have zeros := h.eq_zero fun ⟨x, member, one⟩ => absent (one ▸ member)
  rw [List.sum_eq_zero zeros] at sum
  norm_num at sum

end Binary

namespace Gadget

variable {M y : Rat} {xs bs : List Rat}

/-- The rows of a conjunction hold of the conjunction and of no other truth value. -/
theorem rowsHold_and_iff (operands : Binary xs) (truth : y = 0 ∨ y = 1) :
    (and xs).RowsHold M y bs ↔ y = if ∀ x ∈ xs, x = 1 then 1 else 0 := by
  by_cases ones : ∀ x ∈ xs, x = 1
  · have sum : xs.sum = xs.length := by
      rw [List.eq_replicate_of_mem ones]
      simp
    rw [if_pos ones]
    constructor
    · rintro ⟨-, above⟩
      obtain rfl | rfl := truth
      · linarith
      · rfl
    · rintro rfl
      exact ⟨fun x member => (ones x member).ge, by linarith⟩
  · have zero := operands.zero_mem ones
    rw [if_neg ones]
    constructor
    · rintro ⟨below, -⟩
      have := below 0 zero
      obtain rfl | rfl := truth
      · rfl
      · linarith
    · rintro rfl
      have := operands.sum_le_of_zero_mem zero
      exact ⟨operands.nonneg, by linarith⟩

/-- The rows of a disjunction hold of the disjunction and of no other truth value. -/
theorem rowsHold_or_iff (operands : Binary xs) (truth : y = 0 ∨ y = 1) :
    (or xs).RowsHold M y bs ↔ y = if ∃ x ∈ xs, x = 1 then 1 else 0 := by
  by_cases some : ∃ x ∈ xs, x = 1
  · rw [if_pos some]
    obtain ⟨x, member, rfl⟩ := some
    constructor
    · rintro ⟨above, -⟩
      have := above 1 member
      obtain rfl | rfl := truth
      · linarith
      · rfl
    · rintro rfl
      exact ⟨operands.le_one, List.single_le_sum operands.nonneg 1 member⟩
  · have zeros := operands.eq_zero some
    have sum : xs.sum = 0 := List.sum_eq_zero zeros
    rw [if_neg some]
    constructor
    · rintro ⟨-, below⟩
      obtain rfl | rfl := truth
      · rfl
      · linarith
    · rintro rfl
      exact ⟨fun x member => (zeros x member).le, sum.ge⟩

end Gadget

namespace Piece

variable {piece : Piece Rat} {M x y : Rat}

/-- The rows of a segment whose switch is on. -/
@[simp] theorem holds_one_iff : piece.Holds M x y 1 ↔ piece.Covers x ∧ y = piece.valueAt x := by
  constructor
  · rintro ⟨below, above, after, before⟩
    simp only [sub_self, zero_mul, add_zero, sub_zero] at below above after before
    exact ⟨⟨after, before⟩, le_antisymm below above⟩
  · rintro ⟨⟨start, stop⟩, rfl⟩
    exact ⟨by linarith, by linarith, by linarith, by linarith⟩

/-- The rows of a segment whose switch is off. -/
@[simp] theorem holds_zero (value : |y - piece.valueAt x| ≤ M) (start : piece.start - x ≤ M)
    (stop : x - piece.stop ≤ M) : piece.Holds M x y 0 := by
  obtain ⟨lower, upper⟩ := abs_le.mp value
  exact ⟨by linarith, by linarith, by linarith, by linarith⟩

/-- Of truth values that add up to one, the switch of some segment is on. -/
theorem exists_on {bs : List Rat} {pieces : List (Piece Rat)} (binary : Binary bs)
    (sum : bs.sum = 1) (length : pieces.length = bs.length) :
    ∃ piece ∈ pieces, (1, piece) ∈ bs.zip pieces := by
  have on := binary.one_mem sum
  rw [← List.map_fst_zip length.ge] at on
  obtain ⟨⟨_, piece⟩, member, rfl⟩ := List.mem_map.mp on
  exact ⟨piece, (List.of_mem_zip member).2, member⟩

/-- A segment can be switched on while all others are off. -/
theorem exists_switches {pieces : List (Piece Rat)} {chosen : Piece Rat} (member : chosen ∈ pieces)
    (on : chosen.Holds M x y 1) (off : ∀ piece ∈ pieces, piece.Holds M x y 0) :
    ∃ bs, bs.length = pieces.length ∧ Binary bs ∧ bs.sum = 1 ∧
      ∀ s ∈ bs.zip pieces, s.2.Holds M x y s.1 := by
  obtain ⟨before, after, rfl⟩ := List.append_of_mem member
  refine ⟨before.map (fun _ => 0) ++ 1 :: after.map fun _ => 0, by simp, ?_, by simp, ?_⟩
  · intro b member
    simp only [List.mem_append, List.mem_cons, List.mem_map] at member
    obtain ⟨_, _, rfl⟩ | rfl | ⟨_, _, rfl⟩ := member
    · exact .inl rfl
    · exact .inr rfl
    · exact .inl rfl
  · rintro ⟨b, piece⟩ member
    rw [List.zip_append (by simp), List.zip_cons_cons] at member
    obtain earlier | member := List.mem_append.mp member
    · obtain ⟨zero, stored⟩ := List.of_mem_zip earlier
      obtain ⟨_, _, rfl⟩ := List.mem_map.mp zero
      exact off piece (List.mem_append_left _ stored)
    · obtain here | later := List.mem_cons.mp member
      · cases here
        exact on
      · obtain ⟨zero, stored⟩ := List.of_mem_zip later
        obtain ⟨_, _, rfl⟩ := List.mem_map.mp zero
        exact off piece (List.mem_append_right _ (List.mem_cons_of_mem _ stored))

end Piece

end MipModel
