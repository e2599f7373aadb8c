import MipModel.Proofs.Building
import MipModel.Model.Constrain

/-!
# Growth of models

A model extends another one when its registries continue the registries of the other one and its
counters have not gone back. Everything that was found in the earlier model is then found in the
later one, under the same name.

A model grows when it extends another one and nothing else about it has changed. Growth is what a
rollback undoes: cutting back to the sizes that a model had restores that model itself.
-/

namespace MipModel

namespace Registry

variable {β : Type} {r s : Registry β}

theorem contains_of_prefix (h : r.entries <+: s.entries) {name : String}
    (registered : r.contains name = true) : s.contains name = true := by
  rw [contains_eq_true_iff] at registered ⊢
  exact (h.map Prod.fst).subset registered

/-- A name keeps the value that it had. -/
theorem find?_of_prefix (h : r.entries <+: s.entries) {name : String}
    (registered : r.contains name = true) : s.find? name = r.find? name := by
  obtain ⟨rest, hrest⟩ := h
  obtain ⟨e, he⟩ : ∃ e, r.entries.find? (fun e => e.1 = name) = some e := by
    simpa [contains, find?, Option.isSome_iff_exists] using registered
  simp [find?, ← hrest, List.find?_append, he]

theorem mem_of_find? {name : String} {value : β} (h : r.find? name = some value) :
    (name, value) ∈ r.entries := by
  obtain ⟨e, he, rfl⟩ := Option.map_eq_some_iff.mp h
  have same : e.1 = name := by simpa using List.find?_some he
  rw [← same]
  exact List.mem_of_find?_eq_some he

theorem contains_of_mem {e : String × β} (h : e ∈ r.entries) : r.contains e.1 = true := by
  rw [contains_eq_true_iff]
  exact List.mem_map_of_mem h

theorem contains_of_find? {name : String} {value : β} (h : r.find? name = some value) :
    r.contains name = true := by
  simp [contains, h]

@[simp] theorem find?_push_of_ne {name other : String} (h : other ≠ name) (value : β) :
    (r.push name value).find? other = r.find? other := by
  simp [find?, List.find?_append, Ne.symm h]

theorem contains_eq_false_iff {name : String} : r.contains name = false ↔ name ∉ r.names := by
  rw [← contains_eq_true_iff, Bool.not_eq_true]

end Registry

namespace Model

variable {α : Type}

/-- The registries of one model continue those of another one. -/
structure Extends (m m' : Model α) : Prop where
  vars : m.vars.entries <+: m'.vars.entries
  constraints : m.constraints.entries <+: m'.constraints.entries
  memo : m.memo.entries <+: m'.memo.entries
  nextVariable : m.nextVariable ≤ m'.nextVariable
  nextConstraint : m.nextConstraint ≤ m'.nextConstraint

instance instIsPreorderExtends : IsPreorder (Model α) Extends where
  refl _ := ⟨List.prefix_rfl, List.prefix_rfl, List.prefix_rfl, Nat.le_refl _, Nat.le_refl _⟩
  trans _ _ _ h h' :=
    ⟨h.vars.trans h'.vars, h.constraints.trans h'.constraints, h.memo.trans h'.memo,
      h.nextVariable.trans h'.nextVariable, h.nextConstraint.trans h'.nextConstraint⟩

/-- One model extends another one, and all that is not registered is the same. -/
structure Grows (m m' : Model α) : Prop extends Extends m m' where
  direction : m'.direction = m.direction
  objective : m'.objective = m.objective
  families : m'.families = m.families
  settings : m'.settings = m.settings

instance instIsPreorderGrows : IsPreorder (Model α) Grows where
  refl _ := ⟨refl _, rfl, rfl, rfl, rfl⟩
  trans _ _ _ h h' :=
    ⟨trans_of Extends h.toExtends h'.toExtends, h'.direction.trans h.direction,
      h'.objective.trans h.objective, h'.families.trans h.families, h'.settings.trans h.settings⟩

/-- Cutting a grown model back restores the model that it has grown from. -/
theorem rollback_of_grows {m m' : Model α} (h : m.Grows m') :
    m'.rollback m.checkpoint = m := by
  have vars := Registry.truncate_size_of_prefix h.vars
  have constraints := Registry.truncate_size_of_prefix h.constraints
  have memo := Registry.truncate_size_of_prefix h.memo
  cases m
  cases m'
  obtain ⟨-, direction, objective, families, settings⟩ := h
  simp only at direction objective families settings
  subst direction objective families settings
  simp only [rollback, checkpoint, Model.mk.injEq, true_and, and_true]
  exact ⟨vars, constraints, memo⟩

section Parts

variable {m m' : Model α}

theorem Extends.memo_find? (h : m.Extends m') {name : String} {p : Polynomial α}
    (found : m.memo.find? name = some p) : m'.memo.find? name = some p := by
  rw [Registry.find?_of_prefix h.memo (Registry.contains_of_find? found), found]

theorem Extends.constraint_values (h : m.Extends m') :
    m.constraints.values <+: m'.constraints.values :=
  h.constraints.map Prod.snd

end Parts

end Model

end MipModel
