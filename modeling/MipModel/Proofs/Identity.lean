import MipModel.Proofs.Reachability

/-!
# One entry for each name

A registry has one entry for each name: what is registered under a name that is taken replaces the
entry, and cutting a registry back removes entries only. So an entry is what is found under its
name, in every model that can be reached (`Reachable.distinct`).

The steps that a caller can take are made of a few elementary ones. A relation that these keep, and
that survives a rollback, is kept by every step (`Elementary.run`); it only has to be kept by the
registration of a name that a caller chooses if the step is such a registration. A property that
survives what the elementary steps do to a model holds of every model that can be reached
(`Invariant.of_reachable`).
-/

namespace MipModel

namespace Registry

variable {β : Type} {r : Registry β}

theorem names_insert (r : Registry β) (name : String) (value : β) :
    (r.insert name value).names =
      if r.contains name then r.names else r.names ++ [name] := by
  unfold insert
  split
  · simp only [names, replace, List.map_map]
    refine List.map_congr_left fun e _ => ?_
    by_cases same : e.1 = name
    · simp [same]
    · simp [same]
  · simp [names]

theorem nodup_insert (h : r.names.Nodup) (name : String) (value : β) :
    (r.insert name value).names.Nodup := by
  rw [names_insert]
  split
  · exact h
  next new =>
    rw [Bool.not_eq_true, contains_eq_false_iff] at new
    exact List.nodup_append.mpr ⟨h, List.nodup_singleton name, fun x member y single => by
      rintro rfl
      exact new (List.mem_singleton.mp single ▸ member)⟩

theorem nodup_truncate (h : r.names.Nodup) (n : Nat) : (r.truncate n).names.Nodup :=
  ((List.take_sublist n r.entries).map Prod.fst).nodup h

/-- An entry is what is found under its name. -/
theorem find?_of_mem (h : r.names.Nodup) {e : String × β} (member : e ∈ r.entries) :
    r.find? e.1 = some e.2 := by
  obtain ⟨entries⟩ := r
  unfold find?
  induction entries with
  | nil => cases member
  | cons first rest ih =>
      obtain ⟨absent, distinct⟩ := List.nodup_cons.mp h
      obtain rfl | later := List.mem_cons.mp member
      · simp
      · have different : first.1 ≠ e.1 := fun same => absent (same ▸ List.mem_map_of_mem later)
        rw [List.find?_cons_of_neg (by simpa using different)]
        exact ih distinct later

theorem find?_eq_some_iff (h : r.names.Nodup) {name : String} {value : β} :
    r.find? name = some value ↔ (name, value) ∈ r.entries :=
  ⟨mem_of_find?, find?_of_mem h⟩

end Registry

variable {α : Type} [Scalar α] [Naming α]

open Model Build

section Elementary

variable {R : Model α → Model α → Prop} [IsPreorder (Model α) R]

/-- Installing a gadget registers its variables, adds rows and records a name. -/
theorem keeps_install_of_parts {s : Settings α} {g : Gadget (Polynomial α) α}
    (vars : ∀ v ∈ g.vars (Naming.auxiliary (g.fingerprint s.context)),
      Keeps R (registerAs v.1 (auxiliaryOptions v.2)))
    (rows : ∀ c, Keeps R (addConstraint c)) (memo : ∀ name p, Keeps R (memoize name p)) :
    Keeps R (install s g) := by
  refine Keeps.get.bind fun m => ?_
  split
  · exact .pure _
  · refine Keeps.get.bind fun m => ?_
    refine (Keeps.forM fun v own => ?_).bind fun _ => (Keeps.forM fun row _ => ?_).bind fun _ => ?_
    · exact (vars v own).bind fun _ => .pure _
    · exact (rows _).bind fun _ => .pure _
    · exact (memo _ _).bind fun _ => .pure _

/-- A relation is kept by the steps that register a variable under the next number or store a
family. -/
structure Creating (R : Model α → Model α → Prop) : Prop where
  registerNext (label : String) (options : Variable.Options α) :
    Keeps R (registerNext label options)
  storeFamily (f : Family α) : Keeps R (storeFamily f)

namespace Creating

omit [Naming α]

theorem createVariable (h : Creating R) (label : String) (options : Variable.Options α) :
    Keeps R (Model.createVariable label options) := by
  refine (keeps_requireNewFamily label).bind fun _ => ?_
  refine (h.registerNext label options).bind fun p => ?_
  exact (h.storeFamily _).bind fun _ => .pure _

theorem createFamily (h : Creating R) (name : String) (generators : List (Generator α))
    (options : Variable.Options α) (data : Data α) :
    Keeps R (Model.createFamily name generators options data) := by
  refine (keeps_requireNewFamily name).bind fun _ => (Keeps.liftM _).bind fun _ => ?_
  refine (Keeps.liftM _).bind fun indices => ?_
  refine Keeps.bind (Keeps.foldlM (fun f index => ?_) indices _) fun f => ?_
  · unfold addMember
    split
    · exact .pure _
    · exact (h.registerNext _ options).bind fun p => .pure _
  · exact (h.storeFamily f).bind fun _ => .pure _

theorem defineFamily (h : Creating R) (f : Family α) : Keeps R (Model.defineFamily f) := by
  refine Keeps.get.bind fun m => ?_
  exact (Keeps.forM fun member _ => Keeps.liftM _).bind fun _ => h.storeFamily f

end Creating

/-- A relation is kept by the elementary steps that choose names themselves, and by undoing what
linearization did. -/
structure Elementary (R : Model α → Model α → Prop) : Prop extends Undoable R, Creating R where
  objective (m : Model α) (p : Polynomial α) : R m { m with objective := m.objective.add p }

/-- Every step keeps what the elementary steps keep that it is made of. Only one of them leaves the
name of a variable to the caller. -/
theorem Elementary.run (h : Elementary R) (op : Operation α)
    (given : ∀ name options, op = .registerAs name options → Keeps R (registerAs name options)) :
    Keeps R op.run := by
  cases op with
  | createVariable label options => exact (h.createVariable label options).bind fun _ => .pure _
  | createFamily name generators options data =>
      exact (h.createFamily name generators options data).bind fun _ => .pure _
  | registerAs name options => exact (given name options rfl).bind fun _ => .pure _
  | defineFamily f => exact h.defineFamily f
  | addConstraint c => exact (h.addConstraint c).bind fun _ => .pure _
  | increaseObjective p | decreaseObjective p => exact fun m => h.objective m _
  | linearize s e scope => exact (h.linearize s e scope).bind fun _ => .pure _
  | addToObjective e scope =>
      refine Keeps.bind (Keeps.get.bind fun m => ?_) fun _ => .pure _
      refine (h.linearize _ e scope).bind fun p => ?_
      exact Keeps.bind (fun m => h.objective m _) fun _ => .pure _
  | constrain lhs comparison rhs scope label =>
      exact (h.constrain lhs comparison rhs scope label).bind fun _ => .pure _
  | constrainEach lhs comparison rhs generators scope label =>
      exact (h.constrainEach lhs comparison rhs generators scope label).bind fun _ => .pure _

end Elementary

section Invariants

variable {P : Model α → Prop} {m : Model α}

omit [Scalar α] [Naming α] in
/-- What holds of the first model holds of the second one. -/
def Preserves (P : Model α → Prop) (m m' : Model α) : Prop := P m → P m'

omit [Scalar α] [Naming α] in
instance instIsPreorderPreserves (P : Model α → Prop) : IsPreorder (Model α) (Preserves P) where
  refl _ h := h
  trans _ _ _ first second h := second (first h)

omit [Naming α] in
/-- A property holds of a model without contents, and it survives everything that elementary steps
do to a model. -/
structure Invariant (P : Model α → Prop) : Prop where
  empty (direction : Direction) (settings : Settings α) : P (.empty direction settings)
  addVar {m : Model α} {name : String} {options : Variable.Options α} {v : Variable α} :
    P m → m.vars.contains name = false → options.define name = .ok v → P (m.addVars [(name, v)])
  countVar {m : Model α} : P m → P { m with nextVariable := m.nextVariable + 1 }
  addConstraint {m : Model α} (c : Constraint α) : P m → P ((addConstraint c).runOn m).2
  memoize {m : Model α} (name : String) (p : Polynomial α) :
    P m → P { m with memo := m.memo.insert name p }
  rollback {m m' : Model α} : P m → P m' → P (m'.rollback m.checkpoint)
  storeFamily {m : Model α} (f : Family α) :
    P m → P { m with families := m.families.insert f.name f }
  objective {m : Model α} (p : Polynomial α) : P m → P { m with objective := m.objective.add p }

namespace Invariant

omit [Naming α] in
theorem registerAs (h : Invariant P) (name : String) (options : Variable.Options α) :
    Keeps (Preserves P) (registerAs name options) := by
  intro m holds
  obtain ⟨e, failed⟩ | ⟨v, new, defined, done⟩ := runOn_registerAs name options m
  · rwa [failed]
  · rw [done]
    exact h.addVar holds new defined

omit [Naming α] in
theorem registerNext (h : Invariant P) (label : String) (options : Variable.Options α) :
    Keeps (Preserves P) (registerNext label options) := by
  intro m holds
  obtain ⟨e, failed⟩ | ⟨name, v, -, new, defined, done⟩ := runOn_registerNext label options m
  · rwa [failed]
  · rw [done]
    exact h.countVar (h.addVar holds new defined)

theorem install (h : Invariant P) (s : Settings α) (g : Gadget (Polynomial α) α) :
    Keeps (Preserves P) (install s g) :=
  keeps_install_of_parts (fun v _ => h.registerAs v.1 _) (fun c _ => h.addConstraint c)
    fun name p _ => h.memoize name p

/-- The elementary steps preserve an invariant. -/
theorem elementary (h : Invariant P) : Elementary (Preserves P) where
  install s g _ := h.install s g
  addConstraint c _ := h.addConstraint c
  rollback kept holds := h.rollback holds (kept holds)
  registerNext := h.registerNext
  storeFamily f _ := h.storeFamily f
  objective _ p := h.objective p

/-- An invariant holds of every model that can be reached. -/
theorem of_reachable (h : Invariant P) (reachable : m.Reachable) : P m := by
  induction reachable with
  | empty direction settings => exact h.empty direction settings
  | @step m op _ ih =>
      exact h.elementary.run op (fun name options _ => h.registerAs name options) m ih

end Invariant
end Invariants

section Distinct

variable {m : Model α}

omit [Scalar α] [Naming α] in
/-- No registry of the model holds a name twice. -/
structure Model.Distinct (m : Model α) : Prop where
  vars : m.vars.names.Nodup
  constraints : m.constraints.names.Nodup
  memo : m.memo.names.Nodup

omit [Scalar α] [Naming α] in
theorem Model.Distinct.addVar (h : m.Distinct) {name : String} (v : Variable α)
    (new : m.vars.contains name = false) : (m.addVars [(name, v)]).Distinct := by
  refine ⟨?_, h.constraints, h.memo⟩
  have := Registry.nodup_insert h.vars name v
  rwa [Registry.insert_of_new new] at this

omit [Naming α] in
theorem invariant_distinct : Invariant (Model.Distinct (α := α)) where
  empty _ _ := ⟨List.nodup_nil, List.nodup_nil, List.nodup_nil⟩
  addVar h new _ := h.addVar _ new
  countVar h := ⟨h.vars, h.constraints, h.memo⟩
  addConstraint c h := ⟨h.vars, Registry.nodup_insert h.constraints _ c, h.memo⟩
  memoize name p h := ⟨h.vars, h.constraints, Registry.nodup_insert h.memo name p⟩
  rollback {m _} _ h := ⟨Registry.nodup_truncate h.vars m.vars.size,
    Registry.nodup_truncate h.constraints m.constraints.size,
    Registry.nodup_truncate h.memo m.memo.size⟩
  storeFamily _ h := ⟨h.vars, h.constraints, h.memo⟩
  objective _ h := ⟨h.vars, h.constraints, h.memo⟩

theorem Model.Reachable.distinct (h : m.Reachable) : m.Distinct := invariant_distinct.of_reachable h

end Distinct

end MipModel
