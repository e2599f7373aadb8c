import MipModel.Proofs.Reachability
import MipModel.Proofs.Spelling

/-!
# All or nothing

The steps that linearize expressions either succeed or leave a reachable model exactly as it was:
not only the registries and counters that a rollback resets, but every field. A rollback alone does
not give this. It has to be known that everything done before the failure was an addition at the
end of some registry, which is what growth says about every prefix of the walk over an expression.
-/

namespace MipModel

open Model Build

/-- A step that fails on a model does not change it. -/
def Build.AllOrNothing {α β : Type} (m : Model α) (step : Build α β) : Prop :=
  ∀ e m', step.runOn m = (.error e, m') → m' = m

variable {α : Type} {m : Model α}

namespace Build.AllOrNothing

variable {β γ : Type}

/-- A step that never changes a model changes nothing when it fails. -/
theorem of_unchanged {step : Build α β} (h : (step.runOn m).2 = m) : AllOrNothing m step := by
  intro e m' failed
  rw [failed] at h
  exact h

/-- A step that refuses or succeeds changes nothing when it fails. -/
theorem of_outcome {step : Build α β}
    (h : (∃ e, step.runOn m = (.error e, m)) ∨ ∃ b m', step.runOn m = (.ok b, m')) :
    AllOrNothing m step := by
  intro e m' failed
  obtain ⟨e', refused⟩ | ⟨b, middle, done⟩ := h
  · rw [refused] at failed
    exact (congrArg Prod.snd failed).symm
  · rw [done] at failed
    cases failed

/-- The second part may only fail where the first part has changed nothing. -/
theorem bind {step : Build α β} {next : β → Build α γ} (first : AllOrNothing m step)
    (second : ∀ {b middle}, step.runOn m = (.ok b, middle) →
      ∀ e m', (next b).runOn middle = (.error e, m') → m' = m) :
    AllOrNothing m (step >>= next) := by
  intro e m' failed
  obtain stopped | ⟨b, middle, done, stopped⟩ := runOn_bind_error.mp failed
  · exact first e m' stopped
  · exact second done e m' stopped

/-- Growth is what makes a failed atomic step disappear. -/
theorem atomically [Scalar α] [Naming α] {step : Build α β} (consistent : m.Consistent)
    (grows : Keeps (Consistently Grows) step) : AllOrNothing m (Build.atomically step) := by
  intro e m' failed
  have grown := (grows m consistent).2
  rw [runOn_atomically] at failed
  cases run : step.runOn m with
  | mk outcome middle =>
      rw [run] at failed grown
      cases outcome with
      | ok b => cases failed
      | error e' =>
          cases failed
          exact rollback_of_grows grown

end Build.AllOrNothing

variable [Scalar α] [Naming α]

theorem allOrNothing_linearize (consistent : m.Consistent) (s : Settings α) (e : Expr α)
    (scope : Scope α) : AllOrNothing m (Model.linearize s e scope) := by
  obtain ⟨-, walked⟩ | ⟨-, evaluated⟩ := linearize_cases s e scope
  · rw [walked]
    exact .atomically consistent (undoable_grows.linearizeExpr s e scope)
  · rw [evaluated]
    exact .of_unchanged rfl

theorem allOrNothing_addToObjective (consistent : m.Consistent) (e : Expr α) (scope : Scope α) :
    AllOrNothing m (addToObjective e scope) := by
  refine .bind (.of_unchanged rfl) fun {current middle} got => ?_
  obtain ⟨rfl, rfl⟩ := runOn_get_ok.mp got
  -- Once the expression is linearized, nothing that follows can fail.
  exact AllOrNothing.bind (allOrNothing_linearize consistent _ e scope)
    fun _ _ _ failed => nomatch failed

theorem allOrNothing_constrain (consistent : m.Consistent) (lhs : Expr α)
    (comparison : Comparison) (rhs : Expr α) (scope : Scope α) (label : Option String) :
    AllOrNothing m (constrain lhs comparison rhs scope label) := by
  refine .bind (.of_unchanged rfl) fun {current middle} got => ?_
  obtain ⟨rfl, rfl⟩ := runOn_get_ok.mp got
  apply AllOrNothing.atomically consistent
  refine (undoable_grows.linearize _ lhs scope).bind fun left => ?_
  refine (undoable_grows.linearize _ rhs scope).bind fun right => ?_
  exact keeps_addConstraint _

theorem allOrNothing_constrainEach (consistent : m.Consistent) (lhs : Expr α)
    (comparison : Comparison) (rhs : Expr α) (generators : List (Generator α)) (scope : Scope α)
    (label : String) :
    AllOrNothing m (constrainEach lhs comparison rhs generators scope label) := by
  refine .bind (.of_unchanged rfl) fun {scopes middle} expanded => ?_
  obtain ⟨-, rfl⟩ := runOn_liftM_ok.mp expanded
  refine AllOrNothing.atomically consistent (Keeps.mapM fun inner _ => ?_)
  exact (undoable_grows.constrain lhs comparison rhs inner _).mapError _

/-- On a reachable model, the steps that linearize expressions happen as a whole or not at all. -/
theorem allOrNothing_of_reachable (reachable : m.Reachable) :
    (∀ s e scope, AllOrNothing m (Model.linearize s e scope)) ∧
    (∀ e scope, AllOrNothing m (addToObjective e scope)) ∧
    (∀ lhs comparison rhs scope label,
      AllOrNothing m (constrain lhs comparison rhs scope label)) ∧
    (∀ lhs comparison rhs generators scope label,
      AllOrNothing m (constrainEach lhs comparison rhs generators scope label)) := by
  have consistent := reachable.consistent
  exact ⟨allOrNothing_linearize consistent, allOrNothing_addToObjective consistent,
    allOrNothing_constrain consistent, allOrNothing_constrainEach consistent⟩

/-- A magnitude is encoded before a division by zero is found; nothing of it remains. -/
theorem unchanged_after_division_by_zero :
    let m : Model Rat := .build .minimize .standard [.registerAs "x" .binary]
    let e : Expr Rat := .add (.abs (.poly (.var "x"))) (.div (.const 1) (.const 0))
    m.Reachable ∧ (Model.linearize .standard e .empty).runOn m = (.error .divisionByZero, m) := by
  intro m e
  have reachable : m.Reachable := Model.reachable_build _ _ _
  have failed : ((Model.linearize .standard e .empty).runOn m).1 = .error .divisionByZero := by
    decide +kernel
  have unchanged := (allOrNothing_of_reachable reachable).1 .standard e .empty .divisionByZero _
    (Prod.ext failed rfl)
  exact ⟨reachable, Prod.ext failed unchanged⟩

end MipModel
