import Mathlib
import MipModel.Text.Identifier

/-!
# Numbered identifiers

A numbered identifier starts with its letter and its counter, and the counter ends where the text
ends or where the first underscore stands. The number can therefore be read off, whatever the label
is, and identifiers with different numbers are different.
-/

namespace MipModel.Identifier

/-- Padding with zeros does not change the number that the digits stand for. -/
theorem ofDigitChars_counter (n : Nat) : Nat.ofDigitChars 10 (counter n).toList 0 = n := by
  simp [counter, Nat.ofDigitChars_append, Nat.ofDigitChars_replicate_zero,
    Nat.ofDigitChars_ten_toDigits]

theorem underscore_notMem_counter (n : Nat) : '_' ∉ (counter n).toList := by
  simp only [counter, String.toList_ofList, List.mem_append, List.mem_replicate, not_or]
  exact ⟨fun h => absurd h.2 (by decide), Nat.underscore_not_in_toDigits⟩

/-- What follows the counter is nothing or starts with an underscore. -/
theorem toList_numbered (letter : String) (n : Nat) (label : String) :
    ∃ tail, (numbered letter n label).toList = letter.toList ++ ((counter n).toList ++ tail) ∧
      (tail = [] ∨ ∃ rest, tail = '_' :: rest) := by
  by_cases h : label.isEmpty = true
  · exact ⟨[], by simp [numbered, h], .inl rfl⟩
  · exact ⟨'_' :: (sanitize label).toList, by simp [numbered, h], .inr ⟨_, rfl⟩⟩

/-- The counter is what stands before the first underscore. -/
private theorem takeWhile_counter (n : Nat) {tail : List Char}
    (h : tail = [] ∨ ∃ rest, tail = '_' :: rest) :
    ((counter n).toList ++ tail).takeWhile (· ≠ '_') = (counter n).toList := by
  have digits : ∀ c ∈ (counter n).toList, decide (c ≠ '_') = true := by
    intro c hc
    have : c ≠ '_' := fun equal => underscore_notMem_counter n (equal ▸ hc)
    simpa using this
  rw [List.takeWhile_append_of_pos digits]
  obtain rfl | ⟨rest, rfl⟩ := h <;> simp

/-- Identifiers with the same letter and different numbers are different. -/
theorem number_eq_of_numbered_eq {letter label label' : String} {n n' : Nat}
    (h : numbered letter n label = numbered letter n' label') : n = n' := by
  obtain ⟨tail, eq, shape⟩ := toList_numbered letter n label
  obtain ⟨tail', eq', shape'⟩ := toList_numbered letter n' label'
  have same : (counter n).toList ++ tail = (counter n').toList ++ tail' := by
    apply List.append_cancel_left
    rw [← eq, ← eq', h]
  have counters : (counter n).toList = (counter n').toList := by
    rw [← takeWhile_counter n shape, same, takeWhile_counter n' shape']
  rw [← ofDigitChars_counter n, counters, ofDigitChars_counter]

end MipModel.Identifier
