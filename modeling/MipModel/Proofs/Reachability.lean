import MipModel.Proofs.Consistency
import MipModel.Proofs.Walk

/-!
# Reachable models

The public steps that build a model, and the models that they lead to from an empty one. A step may
fail; the model that it leaves behind is then where the next step starts.

Every step keeps consistency and extends the model, whatever its outcome, so every reachable model
is consistent. The steps that linearize expressions do more: they leave families and settings
alone, which makes them fit to be undone.
-/

namespace MipModel

variable {α : Type} [Scalar α] [Naming α]

open Model Build

/-- A step that a caller can take. -/
inductive Operation (α : Type) where
  | createVariable (label : String) (options : Variable.Options α)
  | createFamily (name : String) (generators : List (Generator α)) (options : Variable.Options α)
      (data : Data α)
  | registerAs (name : String) (options : Variable.Options α)
  | defineFamily (f : Family α)
  | addConstraint (c : Constraint α)
  | increaseObjective (p : Polynomial α)
  | decreaseObjective (p : Polynomial α)
  | linearize (s : Settings α) (e : Expr α) (scope : Scope α)
  | addToObjective (e : Expr α) (scope : Scope α)
  | constrain (lhs : Expr α) (comparison : Comparison) (rhs : Expr α) (scope : Scope α)
      (label : Option String)
  | constrainEach (lhs : Expr α) (comparison : Comparison) (rhs : Expr α)
      (generators : List (Generator α)) (scope : Scope α) (label : String)

/-- Take a step without regard to its result. -/
def Operation.run : Operation α → Build α Unit
  | .createVariable label options => do let _ ← Model.createVariable label options
  | .createFamily name generators options data => do
    let _ ← Model.createFamily name generators options data
  | .registerAs name options => do let _ ← Model.registerAs name options
  | .defineFamily f => Model.defineFamily f
  | .addConstraint c => do let _ ← Model.addConstraint c
  | .increaseObjective p => Model.increaseObjective p
  | .decreaseObjective p => Model.decreaseObjective p
  | .linearize s e scope => do let _ ← Model.linearize s e scope
  | .addToObjective e scope => do let _ ← Model.addToObjective e scope
  | .constrain lhs comparison rhs scope label => do
    let _ ← Model.constrain lhs comparison rhs scope label
  | .constrainEach lhs comparison rhs generators scope label => do
    let _ ← Model.constrainEach lhs comparison rhs generators scope label

/-- The models that steps lead to from an empty one. -/
inductive Model.Reachable : Model α → Prop where
  | empty (direction : Direction) (settings : Settings α) :
      Reachable (Model.empty direction settings)
  | step {m : Model α} (op : Operation α) : Reachable m → Reachable (op.run.runOn m).2

/-- The model after further steps, each of which may fail. -/
def Model.advance (m : Model α) (ops : List (Operation α)) : Model α :=
  ops.foldl (fun m op => (op.run.runOn m).2) m

@[simp] theorem Model.advance_append (m : Model α) (first second : List (Operation α)) :
    m.advance (first ++ second) = (m.advance first).advance second :=
  List.foldl_append ..

theorem Model.Reachable.advance {m : Model α} (reachable : m.Reachable)
    (ops : List (Operation α)) : (m.advance ops).Reachable := by
  induction ops generalizing m with
  | nil => exact reachable
  | cons op ops ih => exact ih (.step op reachable)

/-- The model that a list of steps leads to from an empty one. -/
def Model.build (direction : Direction) (settings : Settings α) (ops : List (Operation α)) :
    Model α :=
  (Model.empty direction settings).advance ops

theorem Model.reachable_build (direction : Direction) (settings : Settings α)
    (ops : List (Operation α)) : (Model.build direction settings ops).Reachable :=
  (Reachable.empty direction settings).advance ops

section Linearizing

/-- Storing a constraint keeps consistency and makes the model grow. -/
theorem keeps_addConstraint (c : Constraint α) :
    Keeps (Consistently Grows) (Model.addConstraint c) := by
  intro m h
  obtain ⟨label, done⟩ := runOn_addConstraint h.numbered c
  rw [done]
  exact ⟨h.addRows (h.numbered.addRow label c), grows_addRows m _⟩

/-- Every way of linearizing an expression keeps consistency and makes the model grow. -/
theorem undoable_grows : Undoable (α := α) (Consistently Grows) where
  install s _ := keeps_install s
  addConstraint := keeps_addConstraint
  rollback := Consistently.rollback

end Linearizing

section Registering

variable {m : Model α}

omit [Naming α] in
/-- Registration under the next number succeeds with a new variable of that number at the end, or
changes nothing. -/
theorem runOn_registerNext (label : String) (options : Variable.Options α) (m : Model α) :
    (∃ e, (registerNext label options).runOn m = (.error e, m)) ∨
      ∃ name v, name = Identifier.numbered "v" m.nextVariable label ∧
        m.vars.contains name = false ∧ options.define name = .ok v ∧
        (registerNext label options).runOn m =
          (.ok (.var name),
            { m.addVars [(name, v)] with nextVariable := m.nextVariable + 1 }) := by
  cases defined : options.define (Identifier.numbered "v" m.nextVariable label) with
  | error e => exact .inl ⟨e, by simp [registerNext, Build.runOn_bind, defined]⟩
  | ok v =>
      by_cases taken : m.vars.contains (Identifier.numbered "v" m.nextVariable label) = true
      · exact .inl ⟨.duplicateVariable (Identifier.numbered "v" m.nextVariable label), by
          simp [registerNext, Build.runOn_bind, defined, taken]⟩
      · simp only [Bool.not_eq_true] at taken
        refine .inr ⟨_, v, rfl, taken, defined, ?_⟩
        simp [registerNext, Build.runOn_bind, defined, taken, addVars, Registry.push]

theorem keeps_registerAs (name : String) (options : Variable.Options α) :
    Keeps (Consistently Extends) (Model.registerAs name options) := by
  intro m h
  obtain ⟨e, failed⟩ | ⟨v, -, defined, done⟩ := runOn_registerAs name options m
  · rw [failed]
    exact ⟨h, refl m⟩
  · rw [done]
    refine ⟨h.addVars ?_, (grows_addVars m _).toExtends⟩
    rintro entry (_ | ⟨_, none⟩)
    · exact Variable.Options.name_of_define defined
    · cases none

/-- Only what is consistent about a model's contents has to be shown when its other fields
change. -/
theorem Model.Consistent.congr {m m' : Model α} (h : m.Consistent) (vars : m'.vars = m.vars)
    (constraints : m'.constraints = m.constraints) (families : m'.families = m.families)
    (memo : m'.memo = m.memo) (counter : m'.nextConstraint = m.nextConstraint) :
    m'.Consistent where
  numbered := by
    simpa only [Model.Numbered, constraints, counter] using h.numbered
  named := by
    rw [vars]
    exact h.named
  members := by
    rw [families, vars]
    exact h.members
  recorded := by
    rw [memo]
    intro entry member
    have := h.recorded entry member
    simpa only [Model.Records, Model.Carries, vars, constraints] using this

theorem keeps_registerNext (label : String) (options : Variable.Options α) :
    Keeps (Consistently Extends) (registerNext label options) := by
  intro m h
  obtain ⟨e, failed⟩ | ⟨name, v, -, -, defined, done⟩ := runOn_registerNext label options m
  · rw [failed]
    exact ⟨h, refl m⟩
  · rw [done]
    have named : ∀ entry ∈ [(name, v)], entry.2.name = entry.1 := by
      rintro entry (_ | ⟨_, none⟩)
      · exact Variable.Options.name_of_define defined
      · cases none
    refine ⟨(h.addVars named).congr rfl rfl rfl rfl rfl, ?_⟩
    exact ⟨List.prefix_append _ _, List.prefix_rfl, List.prefix_rfl, Nat.le_succ _, Nat.le_refl _⟩

omit [Naming α] in
/-- What registration under the next number returns is registered. -/
theorem isVariableOf_of_registerNext {label : String} {options : Variable.Options α}
    {p : Polynomial α} {m' : Model α} (h : (registerNext label options).runOn m = (.ok p, m')) :
    m.vars.entries <+: m'.vars.entries ∧ p.IsVariableOf m'.vars := by
  obtain ⟨e, failed⟩ | ⟨name, v, -, -, -, done⟩ := runOn_registerNext label options m
  · rw [failed] at h
    cases h
  · rw [done] at h
    cases h
    have stored : (name, v) ∈ (m.addVars [(name, v)]).vars.entries := by simp
    exact ⟨List.prefix_append _ _, name, Polynomial.isVariable_var name,
      Registry.contains_of_mem stored⟩

/-- Storing a family of registered variables keeps a model consistent. -/
theorem consistently_storeFamily {f : Family α} (registered : f.Registered m.vars) :
    Consistently Extends m ((storeFamily f).runOn m).2 := by
  intro h
  have extended : m.Extends ((storeFamily f).runOn m).2 := by
    have same := refl (r := Extends) m
    exact ⟨same.vars, same.constraints, same.memo, same.nextVariable, same.nextConstraint⟩
  refine ⟨h.of_extends extended h.numbered h.named ?_ fun _ => .inl, extended⟩
  intro f' member
  obtain rfl | earlier := SortedTable.values_insert_subset m.families f.name f f' member
  · exact .inr registered
  · exact .inl earlier

omit [Scalar α] [Naming α] in
theorem keeps_requireNewFamily {R : Model α → Model α → Prop} [IsPreorder (Model α) R]
    (name : String) : Keeps R (requireNewFamily (α := α) name) := by
  refine Keeps.get.bind fun m => ?_
  split
  · exact .throw _
  · exact .pure _

theorem keeps_createVariable (label : String) (options : Variable.Options α) :
    Keeps (Consistently Extends) (createVariable label options) := by
  refine (keeps_requireNewFamily label).bind fun _ => ?_
  refine (keeps_registerNext label options).bind_of_ok fun {m p middle} done => ?_
  have registered : (Family.ofList label [([], p)]).Registered middle.vars := by
    rintro q (_ | ⟨_, none⟩)
    · exact (isVariableOf_of_registerNext done).2
    · cases none
  rw [runOn_bind]
  exact consistently_storeFamily registered

omit [Naming α] in
/-- Adding members registers their variables, and leaves those of the members before alone. -/
theorem registered_of_addMembers {options : Variable.Options α} {indices : List Index}
    {f f' : Family α} {m' : Model α} (h : f.Registered m.vars)
    (done : (indices.foldlM (addMember options) f).runOn m = (.ok f', m')) :
    f'.Registered m'.vars := by
  induction indices generalizing f m with
  | nil =>
      rw [List.foldlM_nil, runOn_pure_ok] at done
      obtain ⟨rfl, rfl⟩ := done
      exact h
  | cons index indices ih =>
      rw [List.foldlM_cons, runOn_bind_ok] at done
      obtain ⟨f₁, m₁, first, rest⟩ := done
      refine ih ?_ rest
      unfold addMember at first
      split at first
      · rw [runOn_pure_ok] at first
        obtain ⟨rfl, rfl⟩ := first
        exact h
      · rw [runOn_bind_ok] at first
        obtain ⟨p, m₂, registered, first⟩ := first
        rw [runOn_pure_ok] at first
        obtain ⟨rfl, rfl⟩ := first
        obtain ⟨later, isVariable⟩ := isVariableOf_of_registerNext registered
        intro q member
        obtain rfl | earlier := SortedTable.values_insert_subset f.members index p q member
        · exact isVariable
        · exact (h q earlier).mono later

theorem keeps_createFamily (name : String) (generators : List (Generator α))
    (options : Variable.Options α) (data : Data α) :
    Keeps (Consistently Extends) (createFamily name generators options data) := by
  refine (keeps_requireNewFamily name).bind fun _ => (Keeps.liftM _).bind fun _ => ?_
  refine (Keeps.liftM _).bind fun indices => ?_
  refine Keeps.bind_of_ok (Keeps.foldlM (fun f index => ?_) indices _) fun {m f middle} done => ?_
  · unfold addMember
    split
    · exact .pure _
    · exact (keeps_registerNext _ options).bind fun p => .pure _
  · have registered : f.Registered middle.vars :=
      registered_of_addMembers (fun p none => absurd none List.not_mem_nil) done
    rw [runOn_bind]
    exact consistently_storeFamily registered

omit [Naming α] in
theorem isVariableOf_of_checkMember {family : String} {index : Index} {p : Polynomial α}
    (h : m.checkMember family index p = .ok ()) : p.IsVariableOf m.vars := by
  unfold checkMember at h
  split at h
  next name single =>
    split at h
    next registered => exact ⟨name, Polynomial.isVariable_of_asVariable? single, registered⟩
    next => cases h
  next => cases h

theorem keeps_defineFamily (f : Family α) :
    Keeps (Consistently Extends) (defineFamily f) := by
  refine Keeps.get.bind_of_ok fun {m m' middle} got => ?_
  obtain ⟨rfl, rfl⟩ := runOn_get_ok.mp got
  rw [runOn_bind, runOn_forM_liftM]
  cases checked : f.toList.forM fun member => middle.checkMember f.name member.1 member.2 with
  | error e => exact refl middle
  | ok u =>
      apply consistently_storeFamily
      intro p member
      obtain ⟨entry, stored, rfl⟩ := List.mem_map.mp member
      exact isVariableOf_of_checkMember (forM_ok.mp checked entry stored)

end Registering

/-- Every step leaves a consistent model that extends the one that it started from. -/
theorem keeps_run (op : Operation α) : Keeps (Consistently Extends) op.run := by
  have grown {β : Type} {step : Build α β} (h : Keeps (Consistently Grows) step) :
      Keeps (Consistently Extends) step := fun m => (h m).toExtends
  have unchanged (f : Model α → Model α) (h : ∀ m, Consistently Extends m (f m)) :
      Keeps (Consistently Extends) (modify f : Build α PUnit) := h
  have objective (m : Model α) (p : Polynomial α) :
      Consistently Extends m { m with objective := p } := fun h =>
    have same := refl (r := Extends) m
    ⟨h.congr rfl rfl rfl rfl rfl,
      same.vars, same.constraints, same.memo, same.nextVariable, same.nextConstraint⟩
  cases op with
  | createVariable label options =>
      exact (keeps_createVariable label options).bind fun _ => .pure _
  | createFamily name generators options data =>
      exact (keeps_createFamily name generators options data).bind fun _ => .pure _
  | registerAs name options => exact (keeps_registerAs name options).bind fun _ => .pure _
  | defineFamily f => exact keeps_defineFamily f
  | addConstraint c => exact (grown (keeps_addConstraint c)).bind fun _ => .pure _
  | increaseObjective p => exact unchanged _ fun m => objective m _
  | decreaseObjective p => exact unchanged _ fun m => objective m _
  | linearize s e scope =>
      exact (grown (undoable_grows.linearize s e scope)).bind fun _ => .pure _
  | addToObjective e scope =>
      refine Keeps.bind (Keeps.get.bind fun m => ?_) fun _ => .pure _
      refine (grown (undoable_grows.linearize _ e scope)).bind fun p => ?_
      exact Keeps.bind (unchanged _ fun m => objective m _) fun _ => .pure _
  | constrain lhs comparison rhs scope label =>
      exact (grown (undoable_grows.constrain lhs comparison rhs scope label)).bind fun _ => .pure _
  | constrainEach lhs comparison rhs generators scope label =>
      exact (grown (undoable_grows.constrainEach lhs comparison rhs generators scope label)).bind
        fun _ => .pure _

theorem Model.Reachable.consistent {m : Model α} (h : m.Reachable) : m.Consistent := by
  induction h with
  | empty direction settings => exact consistent_empty direction settings
  | @step m op _ ih => exact (keeps_run op m ih).1

theorem Model.Reachable.extends_advance {m : Model α} (h : m.Reachable)
    (ops : List (Operation α)) : m.Extends (m.advance ops) := by
  induction ops generalizing m with
  | nil => exact refl m
  | cons op ops ih =>
      exact trans_of Extends (keeps_run op m h.consistent).2 (ih (.step op h))

end MipModel
