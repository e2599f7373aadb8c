import MipModel.Linearization.Naming
import MipModel.Proofs.Domains

/-!
# Integrity of stored data

Definitions of variables and members of families refer to each other by name. Every model that can
be reached, through steps that succeed and steps that fail, is intact in this respect: everything is
stored under its own name, bounds are not crossed, binary variables are bounded within zero and one,
and the members of families are registered variables with the coefficient one
(`Model.Reachable.intact`).

Most of this is part of consistency, or of being defined by options. What is left is an invariant of
its own, namely that a family is stored under its name.
-/

namespace MipModel

section Names

variable {α : Type} [Scalar α]

theorem invariant_familyNames :
    Invariant fun m : Model α => ∀ entry ∈ m.families.entries, entry.2.name = entry.1 where
  empty _ _ _ none := absurd none List.not_mem_nil
  addVar h _ _ := h
  countVar h := h
  addConstraint _ h := h
  memoize _ _ h := h
  rollback _ h := h
  storeFamily f h entry member := by
    obtain rfl | earlier := SortedTable.mem_insertEntry member
    · rfl
    · exact h entry earlier
  objective _ h := h

/-- The bounds that a variable is defined with are not crossed. -/
theorem Variable.Defined.uncrossed {v : Variable α} (h : v.Defined) :
    ∀ lo ∈ v.lower, ∀ hi ∈ v.upper, ¬lo > hi := by
  obtain ⟨o, defined⟩ := h
  have same := Options.eq_of_define defined
  intro lo lower hi upper crossed
  rw [same] at lower upper
  have lower : o.lowerBound = some lo := lower
  have upper : o.upperBound = some hi := upper
  rw [Options.define, lower, upper] at defined
  dsimp only at defined
  rw [if_pos crossed] at defined
  cases defined

end Names

/-- The bounds of a binary variable lie within zero and one. -/
theorem Variable.Defined.within_unit {v : Variable Float} (h : v.Defined)
    (binary : v.kind = .binary) :
    ∃ lo hi, v.lower = some lo ∧ v.upper = some hi ∧ (0 ≤ lo ∧ lo ≤ 1) ∧ 0 ≤ hi ∧ hi ≤ 1 := by
  obtain ⟨lo, hi, lower, upper, number, number', above, ordered, below⟩ := h.exists_bounds binary
  refine ⟨lo, hi, lower, upper, ⟨?_, ?_⟩, ?_, ?_⟩
  · exact (Binary64.le_iff_quantity rfl number).mpr above
  · exact (Binary64.le_iff_quantity number rfl).mpr (ordered.trans below)
  · exact (Binary64.le_iff_quantity rfl number').mpr (above.trans ordered)
  · exact (Binary64.le_iff_quantity number' rfl).mpr below

/-- What refers to something by name finds it, and definitions are in order. -/
structure Model.Intact (m : Model Float) : Prop where
  named : ∀ entry ∈ m.vars.entries, entry.2.name = entry.1
  uncrossed : ∀ v ∈ m.vars.values, ∀ lo ∈ v.lower, ∀ hi ∈ v.upper, ¬lo > hi
  binary : ∀ v ∈ m.vars.values, v.kind = .binary →
    ∃ lo hi, v.lower = some lo ∧ v.upper = some hi ∧ (0 ≤ lo ∧ lo ≤ 1) ∧ 0 ≤ hi ∧ hi ≤ 1
  familyNames : ∀ entry ∈ m.families.entries, entry.2.name = entry.1
  members : ∀ f ∈ m.families.values, ∀ p ∈ f.members.values,
    ∃ x, p = .var x ∧ m.vars.contains x = true

/-- Every model that can be reached is intact, whichever steps on the way have failed. -/
theorem Model.Reachable.intact [Naming Float] {m : Model Float} (h : m.Reachable) : m.Intact where
  named := h.consistent.named
  uncrossed v member := (h.defined v member).uncrossed
  binary v member := (h.defined v member).within_unit
  familyNames := invariant_familyNames.of_reachable h
  members f stored p member := by
    obtain ⟨x, single, registered⟩ := h.consistent.members f stored p member
    exact ⟨x, single.eq_var fun _ => Binary64.eq_one_of_beq, registered⟩

/-- Four of the nine steps fail: a family whose bounds are crossed, a family of a variable that is
not registered, a family of a multiple, and a linearization that encodes a magnitude before it
divides by zero. -/
theorem intact_after_failures :
    let domain : List (Generator Float) := [.of "i" (.values [1, 2])]
    let failing : Expr Float := .add (.abs (.var "x" [.literal 1])) (.div (.const 1) (.const 0))
    let m : Model Float := .build .minimize .standard
      [.createVariable "b" (Variable.Options.binary.between (-3) 5),
       .createFamily "x" domain (Variable.Options.free.between 2 1) .empty,
       .createFamily "x" domain .free .empty,
       .registerAs "spare" (Variable.Options.binary.atMost (0.0 / 0.0)),
       .defineFamily (.ofList "b" [([1], .var "spare"), ([2], .var "v00000_b")]),
       .defineFamily (.ofList "y" [([], .var "missing")]),
       .defineFamily (.ofList "x" [([], (Polynomial.var "spare").scale 2)]),
       .linearize .standard failing .empty,
       .linearize .standard (.abs (.var "x" [.literal 1])) .empty]
    m.vars.size = 5 ∧ m.families.keys = ["b", "x"] ∧ m.Reachable ∧ m.Intact := by
  intro domain failing m
  have reachable : m.Reachable := Model.reachable_build _ _ _
  exact ⟨by decide +kernel, by decide +kernel, reachable, reachable.intact⟩

end MipModel
