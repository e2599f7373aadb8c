import MipModel.Proofs.Identity

/-!
# What a run leaves behind

Models are only ever continued. Whatever a step does, and whether or not it fails, the variables and
the constraints before it stand in the same order at the front of those after it, and no counter
goes back.

The identifiers that steps hand out name distinct constraints for good: those that a step hands out
are the names of constraints that it has appended (`Appends`), in the same order, so those of a
whole run are part of the names in its last model, where no name occurs twice.
-/

namespace MipModel

variable {α : Type} [Scalar α] [Naming α]

open Model Build

/-- Take a step and return the identifiers that it hands out. -/
def Operation.issue : Operation α → Build α (List String)
  | .addConstraint c => do return [← Model.addConstraint c]
  | .constrain lhs comparison rhs scope label => do
    return [← Model.constrain lhs comparison rhs scope label]
  | .constrainEach lhs comparison rhs generators scope label =>
    Model.constrainEach lhs comparison rhs generators scope label
  | op => do
    op.run
    return []

omit [Naming α] in
/-- The constraints that a step asks for: one that is given, or comparisons of polynomials that
stand for the two sides. -/
def Operation.Asks : Operation α → Constraint α → Prop
  | .addConstraint given, c => c = given
  | .constrain _ comparison _ _ label, c => ∃ left right,
    c = { Constraint.compare left comparison right with label := label }
  | .constrainEach _ comparison _ generators _ label, c => ∃ left right inner,
    c = { Constraint.compare left comparison right with
      label := some (instanceLabel label generators inner) }
  | _, _ => False

namespace Model

/-- The identifiers that steps hand out one after another, each with the step. -/
def issued (m : Model α) : List (Operation α) → List (Operation α × String)
  | [] => []
  | op :: ops =>
    let ids := match (op.issue.runOn m).1 with
      | .ok ids => ids
      | .error _ => []
    ids.map (fun id => (op, id)) ++ (op.run.runOn m).2.issued ops

omit [Naming α] in
/-- The constraints of one model continue those of another one, and what was added holds for every
identifier handed out, in this order, a constraint that its step asked for. -/
def Issues (m m' : Model α) (handed : List (Operation α × String)) : Prop :=
  ∃ added, m'.constraints.entries = m.constraints.entries ++ added ∧
    (handed.map Prod.snd).Sublist (added.map Prod.fst) ∧
    ∀ entry ∈ handed, ∃ c, entry.1.Asks c ∧ (entry.2, c) ∈ added

end Model

section Issuing

variable {m m' m'' : Model α}

namespace Model.Issues

omit [Naming α] in
theorem of_extends (h : m.Extends m') : m.Issues m' [] := by
  obtain ⟨added, same⟩ := h.constraints
  exact ⟨added, same.symm, List.nil_sublist _, fun _ none => absurd none List.not_mem_nil⟩

omit [Naming α] in
theorem trans {first second : List (Operation α × String)} (h : m.Issues m' first)
    (h' : m'.Issues m'' second) : m.Issues m'' (first ++ second) := by
  obtain ⟨added, same, part, asked⟩ := h
  obtain ⟨added', same', part', asked'⟩ := h'
  refine ⟨added ++ added', by rw [same', same, List.append_assoc], ?_, ?_⟩
  · simpa only [List.map_append] using part.append part'
  · intro entry member
    obtain earlier | later := List.mem_append.mp member
    · obtain ⟨c, asks, stored⟩ := asked entry earlier
      exact ⟨c, asks, List.mem_append_left _ stored⟩
    · obtain ⟨c, asks, stored⟩ := asked' entry later
      exact ⟨c, asks, List.mem_append_right _ stored⟩

omit [Naming α] in
/-- Storing a constraint hands out its name. -/
theorem of_addConstraint (op : Operation α) (numbered : m.Numbered) {c : Constraint α}
    (asks : op.Asks c) {id : String} (done : (Model.addConstraint c).runOn m = (.ok id, m')) :
    m.Issues m' [(op, id)] := by
  obtain ⟨label, stored⟩ := runOn_addConstraint numbered c
  rw [stored] at done
  cases done
  refine ⟨_, rfl, List.Sublist.refl _, fun entry member => ?_⟩
  obtain rfl := List.mem_singleton.mp member
  exact ⟨c, asks, List.mem_singleton_self _⟩

/-- A constraint from expressions is stored after what its sides needed. -/
theorem of_constrain (op : Operation α) (consistent : m.Consistent) {lhs rhs : Expr α}
    {comparison : Comparison} {scope : Scope α} {label : Option String}
    (asks : ∀ left right,
      op.Asks { Constraint.compare left comparison right with label := label })
    {id : String} (done : (Model.constrain lhs comparison rhs scope label).runOn m = (.ok id, m')) :
    m.Issues m' [(op, id)] := by
  simp only [Model.constrain, runOn_bind_ok, runOn_get_ok] at done
  obtain ⟨_, _, ⟨rfl, rfl⟩, done⟩ := done
  simp only [runOn_atomically_ok, runOn_bind_ok] at done
  obtain ⟨left, m₁, first, right, m₂, second, stored⟩ := done
  obtain ⟨consistent₁, grows₁⟩ := (undoable_grows.linearize _ lhs scope).of_run first consistent
  obtain ⟨consistent₂, grows₂⟩ := (undoable_grows.linearize _ rhs scope).of_run second consistent₁
  exact (of_extends (trans_of Grows grows₁ grows₂).toExtends).trans
    (of_addConstraint op consistent₂.numbered (asks left right) stored)

/-- A loop hands out what its iterations do. -/
theorem of_mapM {β : Type} (op : Operation α) {xs : List β} {f : β → Build α String}
    (keeps : ∀ x ∈ xs, Keeps (Consistently Grows) (f x))
    (each : ∀ x ∈ xs, ∀ {m m' id}, m.Consistent → (f x).runOn m = (.ok id, m') →
      m.Issues m' [(op, id)])
    (consistent : m.Consistent) {ids : List String}
    (done : (xs.mapM f).runOn m = (.ok ids, m')) :
    m.Issues m' (ids.map fun id => (op, id)) := by
  induction xs generalizing m ids with
  | nil =>
      obtain ⟨rfl, rfl⟩ := runOn_pure_ok.mp done
      exact of_extends (refl _)
  | cons x xs ih =>
      rw [List.mapM_cons] at done
      simp only [runOn_bind_ok, runOn_pure_ok] at done
      obtain ⟨id, middle, first, ids', _, rest, rfl, rfl⟩ := done
      obtain ⟨keepsFirst, keepsRest⟩ := List.forall_mem_cons.mp keeps
      have consistent' := (keepsFirst.of_run first consistent).1
      exact (each x List.mem_cons_self consistent first).trans
        (ih keepsRest (fun y later => each y (List.mem_cons_of_mem x later)) consistent' rest)

/-- What a successful step hands out. -/
theorem of_issue (consistent : m.Consistent) {op : Operation α} {ids : List String}
    (done : op.issue.runOn m = (.ok ids, m')) : m.Issues m' (ids.map fun id => (op, id)) := by
  have quiet (done : (do op.run; return [] : Build α (List String)).runOn m = (.ok ids, m')) :
      m.Issues m' (ids.map fun id => (op, id)) := by
    simp only [runOn_bind_ok, runOn_pure_ok] at done
    obtain ⟨u, _, run, rfl, rfl⟩ := done
    exact of_extends ((keeps_run op).of_run run consistent).2
  cases op with
  | addConstraint c =>
      simp only [Operation.issue, runOn_bind_ok, runOn_pure_ok] at done
      obtain ⟨id, _, stored, rfl, rfl⟩ := done
      exact of_addConstraint (.addConstraint c) consistent.numbered rfl stored
  | constrain lhs comparison rhs scope label =>
      simp only [Operation.issue, runOn_bind_ok, runOn_pure_ok] at done
      obtain ⟨id, _, stored, rfl, rfl⟩ := done
      exact of_constrain (.constrain lhs comparison rhs scope label) consistent
        (fun left right => ⟨left, right, rfl⟩) stored
  | constrainEach lhs comparison rhs generators scope label =>
      simp only [Operation.issue, Model.constrainEach, runOn_bind_ok, runOn_liftM_ok] at done
      obtain ⟨scopes, _, ⟨-, rfl⟩, done⟩ := done
      refine of_mapM _ (fun inner _ => ?_) (fun inner _ {m m' id} consistent stored => ?_)
        consistent (runOn_atomically_ok.mp done)
      · exact (undoable_grows.constrain lhs comparison rhs inner _).mapError _
      · exact of_constrain (.constrainEach lhs comparison rhs generators scope label) consistent
          (fun left right => ⟨left, right, inner, rfl⟩) (runOn_mapError_ok.mp stored)
  | _ => exact quiet done

end Model.Issues

/-- Handing out identifiers does not change what a step does. -/
theorem runOn_issue_snd (op : Operation α) (m : Model α) :
    (op.issue.runOn m).2 = (op.run.runOn m).2 := by
  have returning {β γ : Type} (step : Build α β) (f : β → γ) :
      ((step >>= fun b => return f b).runOn m).2 = (step.runOn m).2 := by
    rw [runOn_bind]
    rcases step.runOn m with ⟨e | b, m'⟩ <;> rfl
  cases op with
  | addConstraint c => exact (returning _ _).trans (returning _ _).symm
  | constrain lhs comparison rhs scope label => exact (returning _ _).trans (returning _ _).symm
  | constrainEach lhs comparison rhs generators scope label => exact (returning _ _).symm
  | _ => exact returning _ _

/-- What a run hands out. -/
theorem Model.issues_advance (consistent : m.Consistent) (ops : List (Operation α)) :
    m.Issues (m.advance ops) (m.issued ops) := by
  induction ops generalizing m with
  | nil => exact .of_extends (refl m)
  | cons op ops ih =>
      obtain ⟨consistent', extends'⟩ := keeps_run op m consistent
      refine Issues.trans ?_ (ih consistent')
      have same := runOn_issue_snd op m
      rcases done : op.issue.runOn m with ⟨e | ids, m'⟩
      · exact .of_extends extends'
      · rw [done] at same
        obtain rfl : m' = (op.run.runOn m).2 := same
        exact .of_issue consistent done

/-- Whatever steps follow others, and whichever of them fail: variables and constraints are
continued and counters do not go back; the identifiers handed out are distinct, and each of them
names from then on the constraint that its step asked for; and no definition of a variable
changes. -/
theorem Model.build_continued (direction : Direction) (settings : Settings α)
    (before after : List (Operation α)) :
    let start := Model.empty direction settings
    let m := start.advance before
    let m' := start.advance (before ++ after)
    m.vars.entries <+: m'.vars.entries ∧ m.constraints.entries <+: m'.constraints.entries ∧
    m.nextVariable ≤ m'.nextVariable ∧ m.nextConstraint ≤ m'.nextConstraint ∧
    ((start.issued (before ++ after)).map Prod.snd).Nodup ∧
    (∀ entry ∈ start.issued before, ∃ c, entry.1.Asks c ∧
      m.constraints.find? entry.2 = some c ∧ m'.constraints.find? entry.2 = some c) ∧
    ∀ name v, m.vars.find? name = some v → m'.vars.find? name = some v := by
  intro start m m'
  have reachable₀ : start.Reachable := .empty direction settings
  have reachable : m.Reachable := reachable₀.advance before
  have later : m.Extends m' := by
    rw [show m' = m.advance after from advance_append start before after]
    exact reachable.extends_advance after
  have distinct' : m'.Distinct := (reachable₀.advance (before ++ after)).distinct
  refine ⟨later.vars, later.constraints, later.nextVariable, later.nextConstraint, ?_, ?_, ?_⟩
  · obtain ⟨added, same, part, -⟩ := issues_advance reachable₀.consistent (before ++ after)
    have names : m'.constraints.names = added.map Prod.fst := by
      rw [Registry.names, same]
      rfl
    exact part.nodup (names ▸ distinct'.constraints)
  · obtain ⟨added, same, -, asked⟩ := issues_advance reachable₀.consistent before
    intro entry member
    obtain ⟨c, asks, stored⟩ := asked entry member
    have present : (entry.2, c) ∈ m.constraints.entries := same ▸ List.mem_append_right _ stored
    exact ⟨c, asks, Registry.find?_of_mem reachable.distinct.constraints present,
      Registry.find?_of_mem distinct'.constraints (later.constraints.subset present)⟩
  · intro name v found
    rw [Registry.find?_of_prefix later.vars (Registry.contains_of_find? found), found]

end Issuing
end MipModel
