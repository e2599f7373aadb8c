import Mathlib

/-!
# Related lists

Two lists are related when they have the same length and elements at the same place are related. A
member of one list then has a partner in the other one.
-/

namespace List.Forall₂

variable {β γ : Type} {R : β → γ → Prop} {xs : List β} {ys : List γ}

/-- A member of one of two related lists has a partner in the other one. -/
theorem exists_right (h : Forall₂ R xs ys) {x : β} (member : x ∈ xs) : ∃ y ∈ ys, R x y := by
  induction h with
  | nil => exact absurd member not_mem_nil
  | cons related _ ih =>
      rcases mem_cons.mp member with rfl | later
      · exact ⟨_, mem_cons_self, related⟩
      · obtain ⟨y, hy, related⟩ := ih later
        exact ⟨y, mem_cons_of_mem _ hy, related⟩

theorem exists_left (h : Forall₂ R xs ys) {y : γ} (member : y ∈ ys) : ∃ x ∈ xs, R x y := by
  have swapped : Forall₂ (fun y x => R x y) ys xs := Forall₂.flip h
  exact swapped.exists_right member

/-- A list that is related to two lists in a row consists of two parts. -/
theorem exists_append {xs' : List β} (h : Forall₂ R (xs ++ xs') ys) :
    ∃ first second, ys = first ++ second ∧ Forall₂ R xs first ∧ Forall₂ R xs' second := by
  induction xs generalizing ys with
  | nil => exact ⟨[], ys, rfl, .nil, h⟩
  | cons x xs ih =>
      rw [cons_append, forall₂_cons_left_iff] at h
      obtain ⟨y, rest, related, later, rfl⟩ := h
      obtain ⟨first, second, rfl, left, right⟩ := ih later
      exact ⟨y :: first, second, rfl, .cons related left, right⟩

/-- What holds of related elements alike holds of all members of related lists alike. -/
theorem forall_iff {P : β → Prop} {Q : γ → Prop} (h : Forall₂ R xs ys)
    (each : ∀ x ∈ xs, ∀ y, R x y → (P x ↔ Q y)) : (∀ x ∈ xs, P x) ↔ ∀ y ∈ ys, Q y := by
  induction h with
  | nil => simp
  | @cons x y xs ys related _ ih =>
      rw [forall_mem_cons, forall_mem_cons, each x mem_cons_self y related,
        ih fun x' member => each x' (mem_cons_of_mem x member)]

/-- What two elements have in common when they are related to the same one, two lists have in common
when they are related to the same list. -/
theorem map_eq {δ ε : Type} {S : δ → γ → Prop} {f : β → ε} {g : δ → ε} {zs : List δ}
    (h : Forall₂ R xs ys) (h' : Forall₂ S zs ys)
    (each : ∀ x ∈ xs, ∀ z ∈ zs, ∀ y, R x y → S z y → f x = g z) : xs.map f = zs.map g := by
  induction h generalizing zs with
  | nil =>
      cases h'
      rfl
  | @cons x y xs ys related _ ih =>
      obtain ⟨z, zs, related', rest', rfl⟩ := forall₂_cons_right_iff.mp h'
      rw [map_cons, map_cons, each x mem_cons_self z mem_cons_self y related related',
        ih rest' fun a member b member' =>
          each a (mem_cons_of_mem x member) b (mem_cons_of_mem z member')]

/-- When related elements lead on to further ones, so do related lists. -/
theorem transport {δ : Type} {S : β → δ → Prop} {T : γ → δ → Prop} (h : Forall₂ R xs ys)
    (each : ∀ x ∈ xs, ∀ y, R x y → ∃ z, S x z ∧ T y z) :
    ∃ zs, Forall₂ S xs zs ∧ Forall₂ T ys zs := by
  induction h with
  | nil => exact ⟨[], .nil, .nil⟩
  | @cons x y xs ys related _ ih =>
      obtain ⟨z, first, second⟩ := each x mem_cons_self y related
      obtain ⟨zs, firsts, seconds⟩ := ih fun x' member => each x' (mem_cons_of_mem x member)
      exact ⟨z :: zs, .cons first firsts, .cons second seconds⟩

end List.Forall₂
