import MipModel.Proofs.Encoding
import MipModel.Proofs.OrderedTables

/-!
# Consistent models

What every model under construction satisfies, however it was reached: constraint identifiers carry
counters that have been passed, variables are stored under their own names, families hold registered
variables, and every memo entry is backed by the variables and the rows of a gadget.

Consistency speaks about what is present, so appending keeps it (`Consistent.of_extends`). The only
step that owes more is the one that writes a memo entry, and by then the encoder has appended all
that the entry needs.
-/

namespace MipModel

variable {α : Type} [Scalar α]

/-- The polynomial is a variable and nothing else: its only coefficient is the number one, or a
number that compares equal to it. -/
def Polynomial.IsVariable (p : Polynomial α) (x : String) : Prop :=
  ∃ c, p.toList = [(Monomial.var x, c)] ∧ (c = 1 ∨ (c == 1) = true)

@[simp] theorem Polynomial.isVariable_var (x : String) : (var x : Polynomial α).IsVariable x :=
  ⟨1, rfl, .inl rfl⟩

theorem Polynomial.isVariable_of_asVariable? {p : Polynomial α} {x : String}
    (h : p.asVariable? = some x) : p.IsVariable x := by
  unfold asVariable? at h
  split at h
  next c entries =>
    split at h
    next one =>
      obtain rfl := Option.some.inj h
      exact ⟨c, entries, .inr one⟩
    next => cases h
  next => cases h

theorem Polynomial.IsVariable.keys {p : Polynomial α} {x : String} (h : p.IsVariable x) :
    p.terms.keys = [Monomial.var x] := by
  obtain ⟨c, single, -⟩ := h
  exact congrArg (List.map Prod.fst) single

/-- Where nothing but one compares equal to one, a variable is the polynomial of its name. -/
theorem Polynomial.IsVariable.eq_var {p : Polynomial α} {x : String} (h : p.IsVariable x)
    (exact : ∀ c : α, (c == 1) = true → c = 1) : p = .var x := by
  obtain ⟨⟨entries⟩⟩ := p
  obtain ⟨c, single, one⟩ := h
  obtain rfl : c = 1 := one.elim id (exact c)
  exact congrArg (fun entries => Polynomial.mk ⟨entries⟩) single

def Polynomial.IsVariableOf (p : Polynomial α) (vars : Registry (Variable α)) : Prop :=
  ∃ x, p.IsVariable x ∧ vars.contains x = true

def Family.Registered (vars : Registry (Variable α)) (f : Family α) : Prop :=
  ∀ p ∈ f.members.values, p.IsVariableOf vars

theorem Polynomial.IsVariableOf.mono {p : Polynomial α} {vars vars' : Registry (Variable α)}
    (h : p.IsVariableOf vars) (later : vars.entries <+: vars'.entries) : p.IsVariableOf vars' := by
  obtain ⟨x, single, registered⟩ := h
  exact ⟨x, single, Registry.contains_of_prefix later registered⟩

theorem Family.Registered.mono {vars vars' : Registry (Variable α)} {f : Family α}
    (h : f.Registered vars) (later : vars.entries <+: vars'.entries) : f.Registered vars' :=
  fun p member => (h p member).mono later

theorem SortedTable.values_insert_subset {κ β : Type} [DecidableEq κ] [LT κ] [DecidableLT κ]
    (t : SortedTable κ β) (k : κ) (v : β) : ∀ x ∈ (t.insert k v).values, x = v ∨ x ∈ t.values := by
  intro x hx
  obtain ⟨e, he, rfl⟩ := List.mem_map.mp hx
  obtain rfl | earlier := mem_insertEntry he
  · exact .inl rfl
  · exact .inr (List.mem_map_of_mem earlier)

namespace Model

/-- The model holds the variables of a gadget under a name, and one after another its rows for some
constant that switches rows off. -/
def Carries (m : Model α) (g : Gadget (Polynomial α) α) (name : String) : Prop :=
  (∀ spec ∈ g.vars name, ∃ v,
    (auxiliaryOptions spec.2).define spec.1 = .ok v ∧ (spec.1, v) ∈ m.vars.entries) ∧
  ∃ bigM, ((g.rows name bigM).map fun row => row.withLabel name) <:+: m.constraints.values

theorem Carries.mono {m m' : Model α} {g : Gadget (Polynomial α) α} {name : String}
    (h : m.Carries g name) (later : m.Extends m') : m'.Carries g name := by
  obtain ⟨vars, bigM, rows⟩ := h
  refine ⟨?_, bigM, rows.trans later.constraint_values.isInfix⟩
  intro spec member
  obtain ⟨v, defined, stored⟩ := vars spec member
  exact ⟨v, defined, later.vars.subset stored⟩

/-- An encoded gadget is carried. -/
theorem EncodedBy.carries {s : Settings α} {g : Gadget (Polynomial α) α} {name : String}
    {m m' : Model α} {added : List (String × Variable α)} {rows : List (String × Constraint α)}
    (h : EncodedBy s g name m m' added rows) : m'.Carries g name := by
  rw [h.result]
  refine ⟨?_, g.bigM s m.vars, ?_⟩
  · intro spec member
    obtain ⟨e, stored, same, defined⟩ := h.vars.defined.exists_right member
    exact ⟨e.2, defined, by simp [← same, stored]⟩
  · rw [← h.stored, constraints_addMemo, values_addRows]
    exact (List.suffix_append _ _).isInfix

variable [Naming α]

/-- A memo entry gives the name of a carried gadget's fingerprint to the variable of that name. -/
def Records (m : Model α) (entry : String × Polynomial α) : Prop :=
  entry.2 = .var entry.1 ∧ ∃ g : Gadget (Polynomial α) α, ∃ context, g.WellShaped ∧
    entry.1 = Naming.auxiliary (g.fingerprint context) ∧ m.Carries g entry.1

/-- The invariant of models under construction. -/
structure Consistent (m : Model α) : Prop where
  numbered : m.Numbered
  named : ∀ entry ∈ m.vars.entries, entry.2.name = entry.1
  members : ∀ f ∈ m.families.values, f.Registered m.vars
  recorded : ∀ entry ∈ m.memo.entries, m.Records entry

/-- The names that variables have are the names that they are registered under. -/
theorem Consistent.names_eq {m : Model α} (h : m.Consistent) :
    m.vars.values.map Variable.name = m.vars.names := by
  rw [Registry.values, Registry.names, List.map_map]
  exact List.map_congr_left fun e member => h.named e member

theorem Consistent.contains_name {m : Model α} (h : m.Consistent) {v : Variable α}
    (registered : v ∈ m.vars.values) : m.vars.contains v.name = true := by
  rw [Registry.contains_eq_true_iff, ← h.names_eq]
  exact List.mem_map_of_mem registered

theorem consistent_empty (direction : Direction) (settings : Settings α) :
    (empty direction settings).Consistent where
  numbered _ used := absurd used List.not_mem_nil
  named _ member := absurd member List.not_mem_nil
  members _ member := absurd member List.not_mem_nil
  recorded _ member := absurd member List.not_mem_nil

/-- What has to be shown anew when a model is extended. -/
theorem Consistent.of_extends {m m' : Model α} (h : m.Consistent) (later : m.Extends m')
    (numbered : m'.Numbered) (named : ∀ entry ∈ m'.vars.entries, entry.2.name = entry.1)
    (members : ∀ f ∈ m'.families.values, f ∈ m.families.values ∨ f.Registered m'.vars)
    (recorded : ∀ entry ∈ m'.memo.entries, entry ∈ m.memo.entries ∨ m'.Records entry) :
    m'.Consistent where
  numbered := numbered
  named := named
  members f member := (members f member).elim
    (fun earlier => (h.members f earlier).mono later.vars) id
  recorded entry member := (recorded entry member).elim
    (fun earlier => by
      obtain ⟨same, g, context, shaped, name, carried⟩ := h.recorded entry earlier
      exact ⟨same, g, context, shaped, name, carried.mono later⟩) id

theorem Consistent.addVars {m : Model α} (h : m.Consistent)
    {added : List (String × Variable α)} (named : ∀ entry ∈ added, entry.2.name = entry.1) :
    (m.addVars added).Consistent :=
  h.of_extends (grows_addVars m added).toExtends h.numbered
    (fun entry member => (List.mem_append.mp member).elim (h.named entry) (named entry))
    (fun _ => .inl) (fun _ => .inl)

theorem Consistent.addRows {m : Model α} (h : m.Consistent)
    {added : List (String × Constraint α)} (numbered : (m.addRows added).Numbered) :
    (m.addRows added).Consistent :=
  h.of_extends (grows_addRows m added).toExtends numbered h.named (fun _ => .inl) (fun _ => .inl)

/-- Encoding a gadget under the name of its fingerprint keeps a model consistent. -/
theorem EncodedBy.consistent {s : Settings α} {g : Gadget (Polynomial α) α} {name context : String}
    {m m' : Model α} {added : List (String × Variable α)} {rows : List (String × Constraint α)}
    (encoded : EncodedBy s g name m m' added rows) (h : m.Consistent) (shaped : g.WellShaped)
    (named : name = Naming.auxiliary (g.fingerprint context)) : m'.Consistent := by
  apply h.of_extends encoded.grows.toExtends encoded.numbered
  · intro entry member
    rw [encoded.result] at member
    obtain earlier | later := List.mem_append.mp member
    · exact h.named entry earlier
    · obtain ⟨spec, -, same, defined⟩ := encoded.vars.defined.exists_left later
      rw [Variable.Options.name_of_define defined, same]
  · intro f member
    rw [encoded.grows.families] at member
    exact .inl member
  · intro entry member
    rw [encoded.result] at member
    obtain earlier | later := List.mem_append.mp member
    · exact .inl earlier
    · obtain rfl := List.mem_singleton.mp later
      exact .inr ⟨rfl, g, context, shaped, named, encoded.carries⟩

/-- From a consistent model to a consistent one along a relation. -/
def Consistently (E : Model α → Model α → Prop) (m m' : Model α) : Prop :=
  m.Consistent → m'.Consistent ∧ E m m'

instance instIsPreorderConsistently (E : Model α → Model α → Prop) [IsPreorder (Model α) E] :
    IsPreorder (Model α) (Consistently E) where
  refl m h := ⟨h, refl m⟩
  trans _ _ _ first second h :=
    ⟨(second (first h).1).1, trans_of E (first h).2 (second (first h).1).2⟩

/-- Undoing growth leads back to where it started. -/
theorem Consistently.rollback {m m' : Model α} (h : Consistently Grows m m') :
    Consistently Grows m (m'.rollback m.checkpoint) := by
  intro consistent
  rw [rollback_of_grows (h consistent).2]
  exact ⟨consistent, refl m⟩

theorem Consistently.toExtends {m m' : Model α} (h : Consistently Grows m m') :
    Consistently Extends m m' :=
  fun consistent => ⟨(h consistent).1, (h consistent).2.toExtends⟩

end Model

open Model Build

section Install

variable [Naming α] {m : Model α} {s : Settings α} {g : Gadget (Polynomial α) α}

/-- A gadget that is recorded is not encoded again. -/
theorem runOn_install_of_recorded {p : Polynomial α}
    (found : m.memo.find? (Naming.auxiliary (g.fingerprint s.context)) = some p) :
    (install s g).runOn m = (.ok p, m) := by
  simp [install, runOn_bind, found]

theorem runOn_install_of_new
    (new : m.memo.find? (Naming.auxiliary (g.fingerprint s.context)) = none) :
    (install s g).runOn m =
      (encode s g (Naming.auxiliary (g.fingerprint s.context))).runOn m := by
  simp [install, runOn_bind, new]

/-- Installing a gadget keeps a model consistent and makes it grow, even if it fails half-way. -/
theorem keeps_install (s : Settings α) (shaped : g.WellShaped) :
    Keeps (Consistently Grows) (install s g) := by
  intro m h
  cases found : m.memo.find? (Naming.auxiliary (g.fingerprint s.context)) with
  | some p =>
      rw [runOn_install_of_recorded found]
      exact ⟨h, refl m⟩
  | none =>
      have new : m.memo.contains (Naming.auxiliary (g.fingerprint s.context)) = false := by
        simp [Registry.contains, found]
      rw [runOn_install_of_new found]
      obtain ⟨e, added, named, failed⟩ | ⟨m', added, rows, encoded, done⟩ :=
        runOn_encode s g h.numbered new
      · rw [failed]
        exact ⟨h.addVars named, grows_addVars m added⟩
      · rw [done]
        exact ⟨encoded.consistent h shaped rfl, encoded.grows⟩

end Install

end MipModel
