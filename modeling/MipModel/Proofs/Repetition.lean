import MipModel.Proofs.History
import MipModel.Proofs.Plans
import MipModel.Proofs.Spelling

/-!
# Linearizing again

An expression that has been linearized once is never encoded again. Whatever happens to the model in
between, and whichever steps fail, the same polynomial results and the model stays as it is, as long
as the families that the expression refers to are the same (`linearize_again`).

The reason is that the plan of an expression depends on nothing else: it asks for the same gadgets,
over the same polynomials, and the memo has recorded all of them.
-/

namespace MipModel

open Model Build

variable {α : Type} [Scalar α] [Naming α] {m m' : Model α} {s : Settings α} {e : Expr α}
  {scope : Scope α} {r : Polynomial α}

/-- Linearizing an expression again yields the same polynomial and changes nothing, also after other
steps, unless they have changed a family that the expression refers to. -/
theorem linearize_again (reachable : m.Reachable)
    (done : (Model.linearize s e scope).runOn m = (.ok r, m')) (ops : List (Operation α))
    (unchanged : e.Every (Expr.Refers fun name =>
      (m'.advance ops).families.find? name = m'.families.find? name)) :
    (Model.linearize s e scope).runOn (m'.advance ops) = (.ok r, m'.advance ops) := by
  have consistent := reachable.consistent
  have reachable' : m'.Reachable := by
    have step := reachable.step (.linearize s e scope)
    rwa [Operation.run, runOn_bind, done] at step
  have families : m'.families = m.families :=
    ((undoable_grows.linearize s e scope).of_run done consistent).2.families
  obtain ⟨gs, planned, installed⟩ := (linearize_ok_iff consistent).mp done
  have shaped := (carriesOut_linearize e scope).shaped planned
  have recorded := recorded_of_installAll consistent shaped installed
  have later := reachable'.extends_advance ops
  refine (linearize_ok_iff (reachable'.advance ops).consistent).mpr ⟨gs, ?_, ?_⟩
  · rw [Expr.denotes_congr unchanged, families]
    exact planned
  · refine runOn_installAll_of_recorded fun g member => ?_
    exact ⟨_, later.memo_find? (recorded g member).2.2⟩

/-- Between the two times a variable is created, a magnitude is encoded by a step that then fails,
and the name of a family is refused because it is taken. -/
theorem choice_again :
    let x : Expr Rat := .var "x" []
    let e : Expr Rat := .add (.abs x) (.ifThenElse x (.const 2) (.abs (.const 3)))
    let m : Model Rat := .build .minimize .standard [.createVariable "x" .binary]
    let m' : Model Rat := ((Model.linearize .standard e .empty).runOn m).2
    let ops : List (Operation Rat) := [.createVariable "y" .binary,
      .constrain (.abs (.neg x)) .le (.div x (.const 0)) .empty none, .createVariable "x" .binary]
    ∃ r, (Model.linearize .standard e .empty).runOn m = (.ok r, m') ∧
      e.Every (Expr.Refers fun name =>
        (m'.advance ops).families.find? name = m'.families.find? name) ∧
      (Model.linearize .standard e .empty).runOn (m'.advance ops) = (.ok r, m'.advance ops) := by
  intro x e m m' ops
  have reachable : m.Reachable := Model.reachable_build _ _ _
  obtain ⟨r, _, done⟩ : ∃ r m', (Model.linearize .standard e .empty).runOn m = (.ok r, m') :=
    exists_of_isOk (by decide +kernel)
  have done : (Model.linearize .standard e .empty).runOn m = (.ok r, m') := by
    rw [done]
    exact congrArg _ (congrArg Prod.snd done).symm
  have same : (m'.advance ops).families.find? "x" = m'.families.find? "x" := by decide +kernel
  have unchanged : e.Every (Expr.Refers fun name =>
      (m'.advance ops).families.find? name = m'.families.find? name) := by
    generalize (m'.advance ops).families = later at same ⊢
    simp [e, x, Expr.Every, Expr.Refers, same]
  exact ⟨r, done, unchanged, linearize_again reachable done ops unchanged⟩

end MipModel
