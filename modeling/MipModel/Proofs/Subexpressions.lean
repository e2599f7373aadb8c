import MipModel.Proofs.RelatedLists
import MipModel.Expr.Classification
import MipModel.Expr.Evaluation
import MipModel.Linearization.Construct

/-!
# Subexpressions

The parts of an expression that are evaluated along with it: operands in the same scope, and the
body of a sum in every scope that its generators produce. Index components and bounds of ranges are
not among them; those are numbers that depend on the scope alone.

Arguments about evaluation and linearization are inductions over these parts
(`operandInduction`).
-/

namespace MipModel.Expr

variable {α : Type}

/-- Whether an expression has no parts of its own. -/
def isLeaf : Expr α → Bool
  | .const _ | .poly _ | .var .. | .param .. | .symbol _ => true
  | _ => false

/-- Whether an expression is one of the constructs beyond arithmetic. -/
def isConstruct : Expr α → Bool
  | .abs _ | .max _ | .min _ | .and _ | .or _ | .ifThenElse .. | .piecewise .. => true
  | _ => false

/-- The construct at the root of an expression, if there is one. -/
def construct? : Expr α → Option Construct
  | .abs _ => some .abs
  | .max _ => some .max
  | .min _ => some .min
  | .and _ => some .and
  | .or _ => some .or
  | .ifThenElse .. => some .ifThenElse
  | .piecewise .. => some .piecewise
  | _ => none

/-- The construct at the root, if there is one, satisfies a property. -/
def Uses (C : Construct → Prop) (e : Expr α) : Prop := ∀ c, e.construct? = some c → C c

theorem isConstruct_eq_isSome (e : Expr α) : e.isConstruct = e.construct?.isSome := by
  cases e <;> rfl

theorem Uses.of_arithmetic {C : Construct → Prop} {e : Expr α} (plain : e.isConstruct = false) :
    e.Uses C := by
  intro c root
  rw [isConstruct_eq_isSome, root] at plain
  cases plain

theorem Uses.arithmetic {e : Expr α} (none : e.Uses fun _ => False) : e.isConstruct = false := by
  rw [isConstruct_eq_isSome, Option.isSome_eq_false_iff, Option.isNone_iff_eq_none]
  exact Option.eq_none_iff_forall_ne_some.mpr none

section Constructs

variable [Scalar α] {e : Expr α} (construct : e.isConstruct = true)
include construct

/-- Constructs are nonlinear whatever their operands are. -/
theorem containsNonlinear_construct : e.containsNonlinear = true := by
  cases e with
  | abs _ | max _ | min _ | and _ | or _ | ifThenElse _ _ _ | piecewise _ _ => rfl
  | _ => cases construct

/-- Direct evaluation refuses constructs. -/
theorem evaluate_construct (families : Families α) (scope : Scope α) :
    e.evaluate families scope = .error (.unsupported (e.text ++ " requires linearization")) := by
  cases e with
  | abs _ | max _ | min _ | and _ | or _ | ifThenElse _ _ _ | piecewise _ _ => rfl
  | _ => cases construct

/-- Constructs are no numbers. -/
theorem constantIn_construct (scope : Scope α) :
    e.constantIn scope = .error e.notConstant := by
  cases e with
  | abs _ | max _ | min _ | and _ | or _ | ifThenElse _ _ _ | piecewise _ _ => rfl
  | _ => cases construct

end Constructs

/-- A polynomial written into the expression at its root satisfies a property. -/
def Embeds (P : Polynomial α → Prop) : Expr α → Prop
  | .poly p => P p
  | _ => True

/-- The family that a reference at the root names satisfies a property. -/
def Refers (S : String → Prop) : Expr α → Prop
  | .var family _ => S family
  | _ => True

/-- The parts of an expression that are evaluated in the same scope. -/
def operands : Expr α → List (Expr α)
  | .add a b | .sub a b | .mul a b | .div a b => [a, b]
  | .neg a | .abs a | .piecewise a _ => [a]
  | .max os | .min os | .and os | .or os => os
  | .ifThenElse c t f => [c, t, f]
  | _ => []

/-- Induction over the parts that are evaluated. -/
@[elab_as_elim]
theorem operandInduction {motive : Expr α → Prop}
    (leaf : ∀ e, e.isLeaf = true → motive e)
    (sum : ∀ body generators, motive body → motive (.sum body generators))
    (add : ∀ a b, motive a → motive b → motive (.add a b))
    (sub : ∀ a b, motive a → motive b → motive (.sub a b))
    (mul : ∀ a b, motive a → motive b → motive (.mul a b))
    (div : ∀ a b, motive a → motive b → motive (.div a b))
    (neg : ∀ a, motive a → motive (.neg a))
    (construct : ∀ e, e.isConstruct = true → (∀ o ∈ e.operands, motive o) → motive e)
    (e : Expr α) : motive e :=
  -- The recursor also ranges over indices, domains and generators, about which nothing is said.
  @Expr.rec α (fun _ => True) (fun _ => True) (fun _ => True) motive (fun _ => True)
    (fun _ => True) (fun os => ∀ o ∈ os, motive o)
    (fun _ => trivial) (fun _ => trivial) trivial (fun _ _ => trivial)
    (fun _ => trivial) (fun _ _ _ _ => trivial) (fun _ => trivial)
    (fun _ _ _ => trivial)
    (fun c => leaf (.const c) rfl) (fun p => leaf (.poly p) rfl)
    (fun family indices _ => leaf (.var family indices) rfl)
    (fun name indices _ => leaf (.param name indices) rfl) (fun name => leaf (.symbol name) rfl)
    (fun body generators ih _ => sum body generators ih)
    add sub mul div neg
    (fun a ih => construct (.abs a) rfl (by simpa [operands] using ih))
    (fun os ih => construct (.max os) rfl ih) (fun os ih => construct (.min os) rfl ih)
    (fun os ih => construct (.and os) rfl ih) (fun os ih => construct (.or os) rfl ih)
    (fun c t f ihc iht ihf =>
      construct (.ifThenElse c t f) rfl (by simpa [operands] using ⟨ihc, iht, ihf⟩))
    (fun a shape ih => construct (.piecewise a shape) rfl (by simpa [operands] using ih))
    trivial (fun _ _ _ _ => trivial) trivial (fun _ _ _ _ => trivial)
    (fun _ h => absurd h List.not_mem_nil)
    (fun _ _ head rest => List.forall_mem_cons.mpr ⟨head, rest⟩)
    e

section Occurrences

variable [Scalar α]

/-- `root.Occurs scope e inner`: when `root` is evaluated in `scope`, its part `e` is evaluated in
the scope `inner`. -/
inductive Occurs (root : Expr α) (scope : Scope α) : Expr α → Scope α → Prop where
  | root : Occurs root scope root scope
  | operand {e o : Expr α} {inner : Scope α} :
      Occurs root scope e inner → o ∈ e.operands → Occurs root scope o inner
  | body {body : Expr α} {generators : List (Generator α)} {outer inner : Scope α}
      {scopes : List (Scope α)} :
      Occurs root scope (.sum body generators) outer →
      Generator.expand generators outer = .ok scopes → inner ∈ scopes →
      Occurs root scope body inner

variable {root e part : Expr α} {scope inner deep : Scope α}

/-- The parts of a part are parts. -/
theorem Occurs.trans (outer : root.Occurs scope e inner) (occurs : e.Occurs inner part deep) :
    root.Occurs scope part deep := by
  induction occurs with
  | root => exact outer
  | operand _ member ih => exact .operand ih member
  | body _ expanded member ih => exact .body ih expanded member

end Occurrences

mutual

/-- Whether a property holds of an expression and of every part of it that is evaluated. -/
def Every (P : Expr α → Prop) : Expr α → Prop
  | .sum body generators => P (.sum body generators) ∧ body.Every P
  | .add a b => P (.add a b) ∧ a.Every P ∧ b.Every P
  | .sub a b => P (.sub a b) ∧ a.Every P ∧ b.Every P
  | .mul a b => P (.mul a b) ∧ a.Every P ∧ b.Every P
  | .div a b => P (.div a b) ∧ a.Every P ∧ b.Every P
  | .neg a => P (.neg a) ∧ a.Every P
  | .abs a => P (.abs a) ∧ a.Every P
  | .max os => P (.max os) ∧ EveryOne P os
  | .min os => P (.min os) ∧ EveryOne P os
  | .and os => P (.and os) ∧ EveryOne P os
  | .or os => P (.or os) ∧ EveryOne P os
  | .ifThenElse c t f => P (.ifThenElse c t f) ∧ c.Every P ∧ t.Every P ∧ f.Every P
  | .piecewise a shape => P (.piecewise a shape) ∧ a.Every P
  | e => P e

def EveryOne (P : Expr α → Prop) : List (Expr α) → Prop
  | [] => True
  | e :: rest => e.Every P ∧ EveryOne P rest

end

@[simp] theorem everyOne_iff {P : Expr α → Prop} {os : List (Expr α)} :
    EveryOne P os ↔ ∀ o ∈ os, o.Every P := by
  induction os with
  | nil => simp [EveryOne]
  | cons o os ih => simp [EveryOne, ih]

section Parts

variable {P : Expr α → Prop} {e : Expr α}

theorem Every.self (h : e.Every P) : P e := by
  cases e <;> first | exact h | exact h.1

theorem Every.operand (h : e.Every P) {o : Expr α} (member : o ∈ e.operands) : o.Every P := by
  cases e <;> simp only [operands, List.mem_cons, List.not_mem_nil, or_false] at member <;>
    first
    | exact member.elim
    | exact member ▸ h.2
    | exact everyOne_iff.mp h.2 o member
    | obtain rfl | rfl := member
      · exact h.2.1
      · exact h.2.2
    | obtain rfl | rfl | rfl := member
      · exact h.2.1
      · exact h.2.2.1
      · exact h.2.2.2

theorem Every.body {body : Expr α} {generators : List (Generator α)}
    (h : (Expr.sum body generators).Every P) : body.Every P := h.2

theorem Every.of_occurs [Scalar α] {root : Expr α} (h : root.Every P) {scope inner : Scope α}
    (occurs : root.Occurs scope e inner) : e.Every P := by
  induction occurs with
  | root => exact h
  | operand _ member ih => exact ih.operand member
  | body _ _ _ ih => exact ih.body

/-- A construct has a property throughout when it and its operands have it. -/
theorem every_of_operands (construct : e.isConstruct = true) (root : P e)
    (parts : ∀ o ∈ e.operands, o.Every P) : e.Every P := by
  cases e with
  | abs a | piecewise a shape => exact ⟨root, parts a List.mem_cons_self⟩
  | max os | min os | and os | or os => exact ⟨root, everyOne_iff.mpr parts⟩
  | ifThenElse c t f =>
      exact ⟨root, parts c (by simp [operands]), parts t (by simp [operands]),
        parts f (by simp [operands])⟩
  | _ => cases construct

theorem Every.imp {Q : Expr α → Prop} (h : e.Every P) (weaker : ∀ e, P e → Q e) : e.Every Q := by
  induction e using operandInduction with
  | leaf e leaf => cases e <;> first | exact weaker _ h | cases leaf
  | sum body generators ih => exact ⟨weaker _ h.1, ih h.2⟩
  | add a b iha ihb | sub a b iha ihb | mul a b iha ihb | div a b iha ihb =>
      exact ⟨weaker _ h.1, iha h.2.1, ihb h.2.2⟩
  | neg a ih => exact ⟨weaker _ h.1, ih h.2⟩
  | construct e construct ih =>
      exact every_of_operands construct (weaker _ h.self)
        fun o member => ih o member (h.operand member)

theorem every_of_forall (h : ∀ e, P e) (e : Expr α) : e.Every P := by
  induction e using operandInduction with
  | leaf e leaf => cases e <;> first | exact h _ | cases leaf
  | sum body generators ih => exact ⟨h _, ih⟩
  | add a b iha ihb | sub a b iha ihb | mul a b iha ihb | div a b iha ihb => exact ⟨h _, iha, ihb⟩
  | neg a ih => exact ⟨h _, ih⟩
  | construct e construct ih => exact every_of_operands construct (h e) ih

end Parts

theorem Embeds.imp {P Q : Polynomial α → Prop} {e : Expr α} (h : e.Embeds P)
    (weaker : ∀ p, P p → Q p) : e.Embeds Q := by
  cases e with
  | poly p => exact weaker p h
  | _ => trivial

end MipModel.Expr
