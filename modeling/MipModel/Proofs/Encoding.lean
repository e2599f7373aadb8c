import MipModel.Proofs.Growth
import MipModel.Proofs.Numbering

/-!
# What encoding a gadget does

Encoding appends variables, then rows, then one memo entry. It can only fail while it registers
variables, and then it leaves the variables before the one that failed. `runOn_encode` says all of
this at once, so later arguments never look inside the step again.

The rows really are appended: constraint identifiers carry the counter, and every identifier in use
has a smaller one (`Numbered`).
-/

namespace MipModel

/-- A variable is defined as it was asked for. -/
theorem Variable.Options.eq_of_define {α : Type} [Scalar α] {o : Variable.Options α}
    {name : String} {v : Variable α} (h : o.define name = .ok v) :
    v = ⟨name, o.kind, o.lowerBound, o.upperBound⟩ := by
  unfold define at h
  split at h
  next lower upper hasLower hasUpper =>
    split at h
    · cases h
    · cases h
      rw [hasLower, hasUpper]
  next =>
    cases h
    rfl

theorem Variable.Options.name_of_define {α : Type} [Scalar α] {o : Variable.Options α}
    {name : String} {v : Variable α} (h : o.define name = .ok v) : v.name = name := by
  rw [eq_of_define h]

/-- What the encoder needs to know about a gadget: the lists of a piecewise function fit
together. -/
def Gadget.WellShaped {ω α : Type} [Scalar α] : Gadget ω α → Prop
  | .piecewise _ shape => shape.check = .ok ()
  | _ => True

namespace Model

variable {α : Type}

/-- Every constraint identifier in use was made from a counter that has been passed. -/
def Numbered (m : Model α) : Prop :=
  ∀ id ∈ m.constraints.names, ∃ n < m.nextConstraint, ∃ label,
    id = Identifier.numbered "c" n label

def addVars (m : Model α) (added : List (String × Variable α)) : Model α :=
  { m with vars := ⟨m.vars.entries ++ added⟩ }

/-- The model with further rows, which the counter has counted. -/
def addRows (m : Model α) (added : List (String × Constraint α)) : Model α :=
  { m with
    constraints := ⟨m.constraints.entries ++ added⟩
    nextConstraint := m.nextConstraint + added.length }

def addMemo (m : Model α) (name : String) (p : Polynomial α) : Model α :=
  { m with memo := m.memo.push name p }

section Fields

/-! What the additions do to each part of a model. -/

variable (m : Model α) (added : List (String × Variable α)) (rows : List (String × Constraint α))
  (name : String) (p : Polynomial α)

@[simp] theorem entries_addVars : (m.addVars added).vars.entries = m.vars.entries ++ added := rfl

@[simp] theorem names_addVars :
    (m.addVars added).vars.names = m.vars.names ++ added.map Prod.fst :=
  List.map_append

@[simp] theorem values_addVars :
    (m.addVars added).vars.values = m.vars.values ++ added.map Prod.snd :=
  List.map_append

@[simp] theorem constraints_addVars : (m.addVars added).constraints = m.constraints := rfl

@[simp] theorem memo_addVars : (m.addVars added).memo = m.memo := rfl

@[simp] theorem families_addVars : (m.addVars added).families = m.families := rfl

@[simp] theorem nextVariable_addVars : (m.addVars added).nextVariable = m.nextVariable := rfl

@[simp] theorem nextConstraint_addVars : (m.addVars added).nextConstraint = m.nextConstraint := rfl

@[simp] theorem vars_addRows : (m.addRows rows).vars = m.vars := rfl

@[simp] theorem entries_addRows :
    (m.addRows rows).constraints.entries = m.constraints.entries ++ rows := rfl

@[simp] theorem names_addRows :
    (m.addRows rows).constraints.names = m.constraints.names ++ rows.map Prod.fst :=
  List.map_append

@[simp] theorem values_addRows :
    (m.addRows rows).constraints.values = m.constraints.values ++ rows.map Prod.snd :=
  List.map_append

@[simp] theorem memo_addRows : (m.addRows rows).memo = m.memo := rfl

@[simp] theorem families_addRows : (m.addRows rows).families = m.families := rfl

@[simp] theorem nextVariable_addRows : (m.addRows rows).nextVariable = m.nextVariable := rfl

@[simp] theorem nextConstraint_addRows :
    (m.addRows rows).nextConstraint = m.nextConstraint + rows.length := rfl

@[simp] theorem vars_addMemo : (m.addMemo name p).vars = m.vars := rfl

@[simp] theorem constraints_addMemo : (m.addMemo name p).constraints = m.constraints := rfl

@[simp] theorem memo_addMemo : (m.addMemo name p).memo = m.memo.push name p := rfl

@[simp] theorem families_addMemo : (m.addMemo name p).families = m.families := rfl

@[simp] theorem nextVariable_addMemo : (m.addMemo name p).nextVariable = m.nextVariable := rfl

@[simp] theorem nextConstraint_addMemo :
    (m.addMemo name p).nextConstraint = m.nextConstraint := rfl

end Fields

@[simp] theorem addVars_nil (m : Model α) : m.addVars [] = m := by
  simp [addVars]

@[simp] theorem addVars_addVars (m : Model α) (first second : List (String × Variable α)) :
    (m.addVars first).addVars second = m.addVars (first ++ second) := by
  simp [addVars]

@[simp] theorem addRows_nil (m : Model α) : m.addRows [] = m := by
  simp [addRows]

@[simp] theorem addRows_addRows (m : Model α) (first second : List (String × Constraint α)) :
    (m.addRows first).addRows second = m.addRows (first ++ second) := by
  simp [addRows, Nat.add_assoc]

theorem grows_addVars (m : Model α) (added : List (String × Variable α)) :
    m.Grows (m.addVars added) :=
  ⟨⟨List.prefix_append _ _, List.prefix_rfl, List.prefix_rfl, Nat.le_refl _, Nat.le_refl _⟩,
    rfl, rfl, rfl, rfl⟩

theorem grows_addRows (m : Model α) (added : List (String × Constraint α)) :
    m.Grows (m.addRows added) :=
  ⟨⟨List.prefix_rfl, List.prefix_append _ _, List.prefix_rfl, Nat.le_refl _,
    Nat.le_add_right _ _⟩, rfl, rfl, rfl, rfl⟩

theorem grows_addMemo (m : Model α) (name : String) (p : Polynomial α) :
    m.Grows (m.addMemo name p) :=
  ⟨⟨List.prefix_rfl, List.prefix_rfl, List.prefix_append _ _, Nat.le_refl _, Nat.le_refl _⟩,
    rfl, rfl, rfl, rfl⟩

section Rows

variable {m : Model α}

/-- A constraint is stored at the end, under an identifier with the present counter. -/
theorem runOn_addConstraint (numbered : m.Numbered) (c : Constraint α) :
    ∃ label, (addConstraint c).runOn m =
      (.ok (Identifier.numbered "c" m.nextConstraint label),
        m.addRows [(Identifier.numbered "c" m.nextConstraint label, c)]) := by
  refine ⟨c.label.getD "", ?_⟩
  have new : m.constraints.contains
      (Identifier.numbered "c" m.nextConstraint (c.label.getD "")) = false := by
    rw [Registry.contains_eq_false_iff]
    intro used
    obtain ⟨n, passed, label, same⟩ := numbered _ used
    have := Identifier.number_eq_of_numbered_eq same
    omega
  simp [addConstraint, Build.runOn_bind, addRows, new, Registry.push]

theorem Numbered.addRow (numbered : m.Numbered) (label : String) (c : Constraint α) :
    (m.addRows [(Identifier.numbered "c" m.nextConstraint label, c)]).Numbered := by
  intro id used
  rw [names_addRows, List.mem_append] at used
  obtain earlier | last := used
  · obtain ⟨n, passed, label', rfl⟩ := numbered id earlier
    exact ⟨n, by simpa using Nat.lt_succ_of_lt passed, label', rfl⟩
  · obtain rfl := List.mem_singleton.mp last
    exact ⟨m.nextConstraint, by simp, label, rfl⟩

/-- Storing rows under a common label always succeeds. -/
theorem runOn_addRows (rows : List (Constraint α)) (name : String) (numbered : m.Numbered) :
    ∃ added, added.map Prod.snd = rows.map (fun row => row.withLabel name) ∧
      (m.addRows added).Numbered ∧
      (rows.forM fun row => do let _ ← addConstraint (row.withLabel name)).runOn m =
        (.ok (), m.addRows added) := by
  induction rows generalizing m with
  | nil => exact ⟨[], rfl, by simpa using numbered, by simp⟩
  | cons row rows ih =>
      obtain ⟨label, done⟩ := runOn_addConstraint numbered (row.withLabel name)
      obtain ⟨added, values, numbered', doneRest⟩ := ih (numbered.addRow label (row.withLabel name))
      rw [addRows_addRows] at numbered' doneRest
      refine ⟨_, ?_, numbered', ?_⟩
      · simp [values]
      · simpa [Build.runOn_bind, done] using doneRest

end Rows

variable [Scalar α]

/-- Entries for variables that were asked for by name and kind, none of which was there before. -/
structure NewVariables (m : Model α) (asked : List (String × Variable.Kind))
    (added : List (String × Variable α)) : Prop where
  defined : List.Forall₂
    (fun spec e => e.1 = spec.1 ∧ (auxiliaryOptions spec.2).define spec.1 = .ok e.2) asked added
  new : ∀ e ∈ added, m.vars.contains e.1 = false
  distinct : (added.map Prod.fst).Nodup

theorem NewVariables.names {m : Model α} {asked : List (String × Variable.Kind)}
    {added : List (String × Variable α)} (h : m.NewVariables asked added) :
    added.map Prod.fst = asked.map Prod.fst := by
  obtain ⟨defined, -, -⟩ := h
  induction defined with
  | nil => rfl
  | cons first _ ih => rw [List.map_cons, List.map_cons, first.1, ih]

section Variables

variable {m : Model α} {name : String} {options : Variable.Options α}

/-- Registration under a new name puts the variable at the end. -/
theorem runOn_registerAs_of_new {v : Variable α} (new : m.vars.contains name = false)
    (defined : options.define name = .ok v) :
    (registerAs name options).runOn m = (.ok (.var name), m.addVars [(name, v)]) := by
  simp [registerAs, Build.runOn_bind, new, defined, addVars, Registry.push]

/-- Registration under a name succeeds with a new variable at the end, or changes nothing. -/
theorem runOn_registerAs (name : String) (options : Variable.Options α) (m : Model α) :
    (∃ e, (registerAs name options).runOn m = (.error e, m)) ∨
      ∃ v, m.vars.contains name = false ∧ options.define name = .ok v ∧
        (registerAs name options).runOn m = (.ok (.var name), m.addVars [(name, v)]) := by
  by_cases taken : m.vars.contains name = true
  · exact .inl ⟨.duplicateVariable name, by simp [registerAs, Build.runOn_bind, taken]⟩
  · simp only [Bool.not_eq_true] at taken
    cases defined : options.define name with
    | error e => exact .inl ⟨e, by simp [registerAs, Build.runOn_bind, taken, defined]⟩
    | ok v => exact .inr ⟨v, taken, rfl, runOn_registerAs_of_new taken defined⟩

/-- Registration of several variables in turn. -/
theorem runOn_registerAll (asked : List (String × Variable.Kind)) (m : Model α) :
    (∃ e added, (∀ entry ∈ added, entry.2.name = entry.1) ∧
      (asked.forM fun v => do let _ ← registerAs v.1 (auxiliaryOptions v.2)).runOn m =
        (.error e, m.addVars added)) ∨
      ∃ added, m.NewVariables asked added ∧
        (asked.forM fun v => do let _ ← registerAs v.1 (auxiliaryOptions v.2)).runOn m =
          (.ok (), m.addVars added) := by
  induction asked generalizing m with
  | nil => exact .inr ⟨[], ⟨.nil, by simp, by simp⟩, by simp⟩
  | cons spec asked ih =>
      simp only [List.forM_eq_forM, List.forM_cons, Build.runOn_bind] at ih ⊢
      obtain ⟨e, failed⟩ | ⟨v, new, defined, done⟩ :=
        runOn_registerAs spec.1 (auxiliaryOptions spec.2) m
      · exact .inl ⟨e, [], by simp, by simp [failed]⟩
      · obtain ⟨e, added, named, failed⟩ | ⟨added, rest, doneRest⟩ := ih (m.addVars [(spec.1, v)])
        · refine .inl ⟨e, (spec.1, v) :: added, ?_, by
            simpa [done] using failed⟩
          rintro entry (_ | ⟨_, later⟩)
          · exact Variable.Options.name_of_define defined
          · exact named entry later
        · refine .inr ⟨(spec.1, v) :: added, ⟨.cons ⟨rfl, defined⟩ rest.defined, ?_, ?_⟩,
            by simpa [done] using doneRest⟩
          · rintro entry (_ | ⟨_, later⟩)
            · exact new
            · have := rest.new entry later
              rw [Registry.contains_eq_false_iff] at this ⊢
              exact fun h => this (by simp [h])
          · refine List.nodup_cons.mpr ⟨?_, rest.distinct⟩
            intro h
            obtain ⟨entry, later, same⟩ := List.mem_map.mp h
            have := rest.new entry later
            rw [Registry.contains_eq_false_iff] at this
            exact this (by simp [same])

/-- New variables can be registered. -/
theorem runOn_registerAll_of_new {asked : List (String × Variable.Kind)}
    {added : List (String × Variable α)} (fresh : m.NewVariables asked added) :
    (asked.forM fun v => do let _ ← registerAs v.1 (auxiliaryOptions v.2)).runOn m =
      (.ok (), m.addVars added) := by
  obtain ⟨defined, new, distinct⟩ := fresh
  induction defined generalizing m with
  | nil => simp
  | @cons spec e asked added first rest ih =>
      obtain ⟨same, defined⟩ := first
      obtain ⟨different, distinct⟩ := List.nodup_cons.mp distinct
      obtain ⟨newFirst, newRest⟩ := List.forall_mem_cons.mp new
      have newRest : ∀ e' ∈ added, (m.addVars [e]).vars.contains e'.1 = false := by
        intro e' later
        have := newRest e' later
        rw [Registry.contains_eq_false_iff] at this ⊢
        have apart : e'.1 ≠ e.1 := fun equal => different (equal ▸ List.mem_map_of_mem later)
        simp [this, apart]
      have step : (registerAs spec.1 (auxiliaryOptions spec.2)).runOn m =
          (.ok (.var spec.1), m.addVars [e]) := by
        rw [same] at newFirst
        rw [runOn_registerAs_of_new newFirst defined, ← same]
      have others := ih newRest distinct
      simpa [Build.runOn_bind, step] using others

end Variables

/-- One model comes from another by encoding a gadget under a name: the variables and the rows that
were added, and the memo entry after them. -/
structure EncodedBy (s : Settings α) (g : Gadget (Polynomial α) α) (name : String)
    (m m' : Model α) (added : List (String × Variable α))
    (rows : List (String × Constraint α)) : Prop where
  new : m.memo.contains name = false
  vars : m.NewVariables (g.vars name) added
  stored : rows.map Prod.snd =
    (g.rows name (g.bigM s m.vars)).map fun row => row.withLabel name
  numbered : m'.Numbered
  result : m' = ((m.addVars added).addRows rows).addMemo name (.var name)

/-- A gadget can be encoded under a new name if its variables are new. -/
theorem runOn_encode_of_new {m : Model α} {s : Settings α} {g : Gadget (Polynomial α) α}
    {name : String} (numbered : m.Numbered) (new : m.memo.contains name = false)
    {added : List (String × Variable α)} (fresh : m.NewVariables (g.vars name) added) :
    ∃ m' rows, EncodedBy s g name m m' added rows ∧
      (encode s g name).runOn m = (.ok (.var name), m') := by
  have numbered' : (m.addVars added).Numbered := numbered
  obtain ⟨rows, values, numberedRows, stored⟩ :=
    runOn_addRows (g.rows name (g.bigM s m.vars)) name numbered'
  refine ⟨((m.addVars added).addRows rows).addMemo name (.var name), rows,
    ⟨new, fresh, values, numberedRows, rfl⟩, ?_⟩
  have still : ((m.addVars added).addRows rows).memo.contains name = false := new
  simp only [encode, Build.runOn_bind, Build.runOn_get, runOn_registerAll_of_new fresh, stored,
    memoize, Build.runOn_modify, Registry.insert_of_new still, Build.runOn_pure, addMemo]

/-- All that encoding a gadget can do. -/
theorem runOn_encode {m : Model α} (s : Settings α) (g : Gadget (Polynomial α) α) {name : String}
    (numbered : m.Numbered) (new : m.memo.contains name = false) :
    (∃ e added, (∀ entry ∈ added, entry.2.name = entry.1) ∧
      (encode s g name).runOn m = (.error e, m.addVars added)) ∨
      ∃ m' added rows, EncodedBy s g name m m' added rows ∧
        (encode s g name).runOn m = (.ok (.var name), m') := by
  obtain ⟨e, added, named, failed⟩ | ⟨added, fresh, -⟩ := runOn_registerAll (g.vars name) m
  · exact .inl ⟨e, added, named, by
      simp only [encode, Build.runOn_bind, Build.runOn_get, failed]⟩
  · obtain ⟨m', rows, encoded, done⟩ := runOn_encode_of_new (s := s) numbered new fresh
    exact .inr ⟨m', added, rows, encoded, done⟩

namespace EncodedBy

variable {s : Settings α} {g : Gadget (Polynomial α) α} {name : String} {m m' : Model α}
variable {added : List (String × Variable α)} {rows : List (String × Constraint α)}

theorem grows (h : EncodedBy s g name m m' added rows) : m.Grows m' := by
  rw [h.result]
  exact trans_of Grows (trans_of Grows (grows_addVars m added) (grows_addRows _ rows))
    (grows_addMemo _ name _)

end EncodedBy
end Model
end MipModel
