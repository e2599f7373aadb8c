import MipModel.Proofs.Encoding
import MipModel.Proofs.Subexpressions

/-!
# The walk over an expression

Linearization walks over an expression and touches the model in one place only: where a gadget has
been put together from linearized operands and is installed. So a construct is linearized in two
steps, whatever the construct (`linearize_eq_install`), and the walk keeps whatever the installation
of gadgets keeps. The steps that linearize expressions then keep what the walk keeps, if it survives
a rollback (`Undoable`).
-/

namespace MipModel

variable {α : Type} [Scalar α]

open Model Build

section Assembly

variable [Naming α]

theorem linearizeAll_eq_mapM (s : Settings α) (operands : List (Expr α)) (scope : Scope α) :
    Expr.linearizeAll s operands scope = operands.mapM fun o => o.linearize s scope := by
  induction operands with
  | nil => simp [Expr.linearizeAll]
  | cons o os ih => simp [Expr.linearizeAll, ih]

/-- The gadget of a construct, over the polynomials that stand for its operands. -/
def Expr.assemble (s : Settings α) : Expr α → Scope α → Build α (Gadget (Polynomial α) α)
  | .abs a, scope => do return .abs (← a.linearize s scope)
  | .max os, scope => do return .max (← operandsOf .max os scope (linearizeAll s os scope))
  | .min os, scope => do return .min (← operandsOf .min os scope (linearizeAll s os scope))
  | .and os, scope => do return .and (← operandsOf .and os scope (linearizeAll s os scope))
  | .or os, scope => do return .or (← operandsOf .or os scope (linearizeAll s os scope))
  | .ifThenElse condition yes no, scope => do
    let c ← condition.linearize s scope
    let t ← yes.linearize s scope
    let f ← no.linearize s scope
    return .ifThenElse c t f
  | .piecewise argument shape, scope => do
    let _ ← shape.check
    return .piecewise (← argument.linearize s scope) shape
  | e, _ => throw (.unsupported e.text)

/-- A construct is linearized by putting its gadget together and installing that. -/
theorem linearize_eq_install (s : Settings α) {e : Expr α} (construct : e.isConstruct = true)
    (scope : Scope α) : e.linearize s scope = e.assemble s scope >>= install s := by
  cases e with
  | abs _ | max _ | min _ | and _ | or _ | ifThenElse _ _ _ | piecewise _ _ =>
      simp [Expr.linearize, Expr.assemble]
  | _ => cases construct

end Assembly

/-- The members of a family that stand for the operands of a construct. -/
theorem runOn_patternOperands_ok {m m' : Model α} {construct : Construct} {family : String}
    {indices : List (IndexExpr α)} {scope : Scope α} {ps : List (Polynomial α)} :
    (patternOperands construct family indices scope).runOn m = (.ok ps, m') ↔
      (m.families.resolveMembers family indices scope = .ok ps ∧ ps ≠ []) ∧ m' = m := by
  simp only [patternOperands, runOn_bind_ok, runOn_get_ok, runOn_liftM_ok]
  constructor
  · rintro ⟨_, _, ⟨rfl, rfl⟩, members, _, ⟨resolved, rfl⟩, h⟩
    split at h
    next =>
      obtain ⟨_, _, -, thrown⟩ := runOn_bind_ok.mp h
      cases thrown
    next nonempty =>
      obtain ⟨rfl, rfl⟩ := runOn_pure_ok.mp h
      exact ⟨⟨resolved, by simpa using nonempty⟩, rfl⟩
  · rintro ⟨⟨resolved, nonempty⟩, rfl⟩
    refine ⟨_, _, ⟨rfl, rfl⟩, ps, _, ⟨resolved, rfl⟩, ?_⟩
    rw [if_neg (by simpa using nonempty)]
    exact runOn_pure_ok.mpr ⟨rfl, rfl⟩

section Keeping

variable {R : Model α → Model α → Prop} [IsPreorder (Model α) R]

/-- Finding operands keeps what computing them keeps. -/
theorem keeps_operandsOf (construct : Construct) {operands : List (Expr α)} {scope : Scope α}
    {compute : Build α (List (Polynomial α))} (h : Keeps R compute) :
    Keeps R (operandsOf construct operands scope compute) := by
  unfold operandsOf
  split
  · split
    · unfold patternOperands
      refine Keeps.get.bind fun m => (Keeps.liftM _).bind fun members => ?_
      split
      · exact (Keeps.liftM _).bind fun pattern => (Keeps.throw _).bind fun _ => .pure _
      · exact .pure _
    · exact .throw _
  · exact .throw _
  · exact h

variable [Naming α] {s : Settings α}

/-- A gadget that is put together has operands of a fitting shape. -/
theorem wellShaped_of_assemble {e : Expr α} {scope : Scope α} {m m' : Model α}
    {g : Gadget (Polynomial α) α} (h : (e.assemble s scope).runOn m = (.ok g, m')) :
    g.WellShaped := by
  cases e with
  | piecewise a shape =>
      simp only [Expr.assemble, runOn_bind_ok, runOn_pure_ok, runOn_liftM_ok] at h
      obtain ⟨u, -, ⟨checked, -⟩, p, middle, -, rfl, -⟩ := h
      exact checked
  | abs a =>
      simp only [Expr.assemble, runOn_bind_ok, runOn_pure_ok] at h
      obtain ⟨p, middle, -, rfl, -⟩ := h
      trivial
  | max os | min os | and os | or os =>
      simp only [Expr.assemble, runOn_bind_ok, runOn_pure_ok] at h
      obtain ⟨ps, middle, -, rfl, -⟩ := h
      trivial
  | ifThenElse c t f =>
      simp only [Expr.assemble, runOn_bind_ok, runOn_pure_ok] at h
      obtain ⟨p, -, -, q, -, -, r, -, -, rfl, -⟩ := h
      trivial
  | _ => cases h

/-- Putting a gadget together keeps what linearizing the operands keeps. -/
theorem keeps_assemble {e : Expr α} (scope : Scope α)
    (h : ∀ o ∈ e.operands, ∀ scope, Keeps R (o.linearize s scope)) :
    Keeps R (e.assemble s scope) := by
  have all {os : List (Expr α)} (each : ∀ o ∈ os, ∀ scope, Keeps R (o.linearize s scope)) :
      Keeps R (Expr.linearizeAll s os scope) := by
    rw [linearizeAll_eq_mapM]
    exact Keeps.mapM fun o member => each o member scope
  cases e with
  | abs a => exact (h a List.mem_cons_self scope).bind fun p => .pure _
  | max os | min os | and os | or os =>
      exact (keeps_operandsOf _ (all h)).bind fun ps => .pure _
  | ifThenElse c t f =>
      have hc := h c (by simp [Expr.operands]) scope
      have ht := h t (by simp [Expr.operands]) scope
      have hf := h f (by simp [Expr.operands]) scope
      exact hc.bind fun p => ht.bind fun q => hf.bind fun r => .pure _
  | piecewise a shape =>
      exact (Keeps.liftM _).bind fun _ => (h a List.mem_cons_self scope).bind fun p => .pure _
  | _ => exact .throw _

/-- The walk over an expression keeps whatever the installation of gadgets keeps. -/
theorem keeps_linearize
    (h : ∀ {g : Gadget (Polynomial α) α}, g.WellShaped → Keeps R (install s g)) (e : Expr α) :
    ∀ scope, Keeps R (e.linearize s scope) := by
  induction e using Expr.operandInduction with
  | leaf e leaf =>
      intro scope
      have evaluates : Keeps R (evaluate e scope) := Keeps.get.bind fun m => Keeps.liftM _
      cases e <;> first | exact evaluates | cases leaf
  | sum body generators ih =>
      intro scope
      rw [Expr.linearize]
      exact (Keeps.liftM _).bind fun scopes => Keeps.foldlM (fun total inner =>
        ((ih inner).mapError _).bind fun p => .pure _) scopes _
  | add a b iha ihb | sub a b iha ihb | mul a b iha ihb =>
      intro scope
      rw [Expr.linearize]
      exact (iha scope).bind fun p => (ihb scope).bind fun q => .pure _
  | div a b iha ihb =>
      intro scope
      rw [Expr.linearize]
      exact (iha scope).bind fun p => (ihb scope).bind fun q => Keeps.liftM _
  | neg a ih =>
      intro scope
      rw [Expr.linearize]
      exact (ih scope).bind fun p => .pure _
  | construct e construct ih =>
      intro scope
      rw [linearize_eq_install s construct]
      exact (keeps_assemble scope ih).bind_of_ok fun assembled =>
        h (wellShaped_of_assemble assembled) _

end Keeping

section WholeSteps

variable [Naming α] {R : Model α → Model α → Prop} [IsPreorder (Model α) R]

/-- A relation is kept by all that the steps which linearize expressions are made of, and by undoing
what they did. -/
structure Undoable (R : Model α → Model α → Prop) : Prop where
  install (s : Settings α) {g : Gadget (Polynomial α) α} : g.WellShaped → Keeps R (install s g)
  addConstraint (c : Constraint α) : Keeps R (addConstraint c)
  rollback {m m' : Model α} : R m m' → R m (m'.rollback m.checkpoint)

namespace Undoable

theorem linearizeExpr (h : Undoable R) (s : Settings α) (e : Expr α) (scope : Scope α) :
    Keeps R (e.linearize s scope) :=
  keeps_linearize (h.install s) e scope

theorem linearize (h : Undoable R) (s : Settings α) (e : Expr α) (scope : Scope α) :
    Keeps R (Model.linearize s e scope) := by
  obtain ⟨-, walked⟩ | ⟨-, evaluated⟩ := linearize_cases s e scope
  · rw [walked]
    exact (h.linearizeExpr s e scope).atomically h.rollback
  · rw [evaluated]
    exact Keeps.get.bind fun _ => Keeps.liftM _

theorem constrain (h : Undoable R) (lhs : Expr α) (comparison : Comparison) (rhs : Expr α)
    (scope : Scope α) (label : Option String) :
    Keeps R (Model.constrain lhs comparison rhs scope label) := by
  refine Keeps.get.bind fun m => Keeps.atomically ?_ h.rollback
  refine (h.linearize _ lhs scope).bind fun left => ?_
  refine (h.linearize _ rhs scope).bind fun right => ?_
  exact h.addConstraint _

theorem constrainEach (h : Undoable R) (lhs : Expr α) (comparison : Comparison) (rhs : Expr α)
    (generators : List (Generator α)) (scope : Scope α) (label : String) :
    Keeps R (Model.constrainEach lhs comparison rhs generators scope label) := by
  refine (Keeps.liftM _).bind fun scopes => Keeps.atomically ?_ h.rollback
  exact Keeps.mapM fun inner _ => (h.constrain lhs comparison rhs inner _).mapError _

end Undoable
end WholeSteps
end MipModel
