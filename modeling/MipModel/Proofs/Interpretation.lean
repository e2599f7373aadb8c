import MipModel.Proofs.Subexpressions
import MipModel.Linearization.Gadget
import MipModel.Expr.Evaluation

/-!
# Interpretations of expressions

One reading of expressions covers all that is said about them later: an interpretation gives a
carrier and the meaning of each operation, and `Expr.Denotes` reads an expression in a scope. The
reading is a relation, because an interpretation may leave a construct without a meaning or allow
several.

Polynomials and numbers are the two carriers. What a polynomial reading says about an expression is
carried over to numbers by a relation between the carriers that the operations respect
(`Simulates`); the induction over expressions that this takes is done once, in `Simulates.denotes`.
-/

namespace MipModel

/-- The meaning of the operations of expressions in a carrier. -/
structure Interpretation (α τ : Type) where
  /-- A number. -/
  constant : α → τ
  /-- A polynomial at hand, or one that a family holds. -/
  polynomial : Polynomial α → τ → Prop
  /-- The sum of nothing. -/
  zero : τ
  add : τ → τ → τ
  sub : τ → τ → τ
  mul : τ → τ → τ
  neg : τ → τ
  /-- A quotient, where there is one. -/
  div : τ → τ → τ → Prop
  /-- A construct beyond arithmetic. -/
  construct : Gadget τ α → τ → Prop

variable {α τ υ : Type} [Scalar α]

/-- The operands of a construct of any number of them. A single reference to several members stands
for these; otherwise the listed operands count, of which there must be at least two. -/
def OperandsDenote (I : Interpretation α τ) (families : Families α) (operands : List (Expr α))
    (scope : Scope α) (listed : List τ → Prop) (xs : List τ) : Prop :=
  match operands with
  | [only] =>
    match only.asPattern? with
    | some (family, indices) => ∃ ps, families.resolveMembers family indices scope = .ok ps ∧
        ps ≠ [] ∧ List.Forall₂ I.polynomial ps xs
    | none => False
  | [] => False
  | _ => listed xs

mutual

/-- The expression has a value in the carrier, with these families and in this scope. -/
def Expr.Denotes (I : Interpretation α τ) (families : Families α) :
    Expr α → Scope α → τ → Prop
  | .const c, _, x => x = I.constant c
  | .poly p, _, x => I.polynomial p x
  | .var family indices, scope, x =>
    ∃ p, families.resolve family indices scope = .ok p ∧ I.polynomial p x
  | .param name indices, scope, x =>
    ∃ c, (Expr.param name indices).constantIn scope = .ok c ∧ x = I.constant c
  | .symbol name, scope, x => ∃ c, scope.number name = .ok c ∧ x = I.constant c
  | .sum body generators, scope, x => ∃ scopes summands,
    Generator.expand generators scope = .ok scopes ∧
      List.Forall₂ (fun inner y => body.Denotes I families inner y) scopes summands ∧
      x = summands.foldl I.add I.zero
  | .add a b, scope, x =>
    ∃ y z, a.Denotes I families scope y ∧ b.Denotes I families scope z ∧ x = I.add y z
  | .sub a b, scope, x =>
    ∃ y z, a.Denotes I families scope y ∧ b.Denotes I families scope z ∧ x = I.sub y z
  | .mul a b, scope, x =>
    ∃ y z, a.Denotes I families scope y ∧ b.Denotes I families scope z ∧ x = I.mul y z
  | .div a b, scope, x =>
    ∃ y z, a.Denotes I families scope y ∧ b.Denotes I families scope z ∧ I.div y z x
  | .neg a, scope, x => ∃ y, a.Denotes I families scope y ∧ x = I.neg y
  | .abs a, scope, x => ∃ y, a.Denotes I families scope y ∧ I.construct (.abs y) x
  | .max os, scope, x => ∃ ys,
    OperandsDenote I families os scope (DenoteAll I families os scope) ys ∧
      I.construct (.max ys) x
  | .min os, scope, x => ∃ ys,
    OperandsDenote I families os scope (DenoteAll I families os scope) ys ∧
      I.construct (.min ys) x
  | .and os, scope, x => ∃ ys,
    OperandsDenote I families os scope (DenoteAll I families os scope) ys ∧
      I.construct (.and ys) x
  | .or os, scope, x => ∃ ys,
    OperandsDenote I families os scope (DenoteAll I families os scope) ys ∧
      I.construct (.or ys) x
  | .ifThenElse condition yes no, scope, x => ∃ c t f,
    condition.Denotes I families scope c ∧ yes.Denotes I families scope t ∧
      no.Denotes I families scope f ∧ I.construct (.ifThenElse c t f) x
  | .piecewise argument shape, scope, x =>
    ∃ y, argument.Denotes I families scope y ∧ I.construct (.piecewise y shape) x

/-- The expressions have values, each its own. -/
def Expr.DenoteAll (I : Interpretation α τ) (families : Families α) :
    List (Expr α) → Scope α → List τ → Prop
  | [], _, xs => xs = []
  | e :: rest, scope, xs => ∃ y ys, e.Denotes I families scope y ∧
    DenoteAll I families rest scope ys ∧ xs = y :: ys

end

/-- The gadget of a construct, over the values of its operands. -/
def Expr.Node (I : Interpretation α τ) (families : Families α) :
    Expr α → Scope α → Gadget τ α → Prop
  | .abs a, scope, g => ∃ y, a.Denotes I families scope y ∧ g = .abs y
  | .max os, scope, g => ∃ ys,
    OperandsDenote I families os scope (DenoteAll I families os scope) ys ∧ g = .max ys
  | .min os, scope, g => ∃ ys,
    OperandsDenote I families os scope (DenoteAll I families os scope) ys ∧ g = .min ys
  | .and os, scope, g => ∃ ys,
    OperandsDenote I families os scope (DenoteAll I families os scope) ys ∧ g = .and ys
  | .or os, scope, g => ∃ ys,
    OperandsDenote I families os scope (DenoteAll I families os scope) ys ∧ g = .or ys
  | .ifThenElse condition yes no, scope, g => ∃ c t f,
    condition.Denotes I families scope c ∧ yes.Denotes I families scope t ∧
      no.Denotes I families scope f ∧ g = .ifThenElse c t f
  | .piecewise argument shape, scope, g =>
    ∃ y, argument.Denotes I families scope y ∧ g = .piecewise y shape
  | _, _, _ => False

namespace Expr

variable {I : Interpretation α τ} {families : Families α}

theorem denoteAll_iff {os : List (Expr α)} {scope : Scope α} {xs : List τ} :
    DenoteAll I families os scope xs ↔
      List.Forall₂ (fun o x => o.Denotes I families scope x) os xs := by
  induction os generalizing xs with
  | nil => simp [DenoteAll]
  | cons o os ih =>
      rw [List.forall₂_cons_left_iff]
      simp only [DenoteAll, ih]

/-- A construct denotes what the interpretation makes of its gadget. -/
theorem denotes_iff_node {e : Expr α} (construct : e.isConstruct = true) {scope : Scope α} {x : τ} :
    e.Denotes I families scope x ↔ ∃ g, e.Node I families scope g ∧ I.construct g x := by
  cases e with
  | abs _ | max _ | min _ | and _ | or _ | ifThenElse _ _ _ | piecewise _ _ =>
      simp only [Denotes, Node]
      grind
  | _ => cases construct

end Expr

/-- Gadgets of the same construct with related operands. -/
inductive Gadget.Related (R : τ → υ → Prop) : Gadget τ α → Gadget υ α → Prop where
  | abs {x : τ} {y : υ} : R x y → Related R (.abs x) (.abs y)
  | max {xs : List τ} {ys : List υ} : List.Forall₂ R xs ys → Related R (.max xs) (.max ys)
  | min {xs : List τ} {ys : List υ} : List.Forall₂ R xs ys → Related R (.min xs) (.min ys)
  | and {xs : List τ} {ys : List υ} : List.Forall₂ R xs ys → Related R (.and xs) (.and ys)
  | or {xs : List τ} {ys : List υ} : List.Forall₂ R xs ys → Related R (.or xs) (.or ys)
  | ifThenElse {c t f : τ} {c' t' f' : υ} : R c c' → R t t' → R f f' →
      Related R (.ifThenElse c t f) (.ifThenElse c' t' f')
  | piecewise {x : τ} {y : υ} (shape : Piecewise α) : R x y →
      Related R (.piecewise x shape) (.piecewise y shape)

/-- Every polynomial that a reference to the families can stand for satisfies a property. -/
def Families.Supplies (families : Families α) (P : Polynomial α → Prop) : Prop :=
  ∀ name indices scope,
    (∀ p, families.resolve name indices scope = .ok p → P p) ∧
    ∀ ps, families.resolveMembers name indices scope = .ok ps → ∀ p ∈ ps, P p

theorem Families.Supplies.imp {families : Families α} {P Q : Polynomial α → Prop}
    (h : families.Supplies P) (weaker : ∀ p, P p → Q p) : families.Supplies Q :=
  fun name indices scope => ⟨fun p resolved => weaker p ((h name indices scope).1 p resolved),
    fun ps resolved p member => weaker p ((h name indices scope).2 ps resolved p member)⟩

/-- The operations of two interpretations respect a relation between their carriers, as far as
polynomials with a property and some of the constructs are concerned. -/
structure Simulates (R : τ → υ → Prop) (P : Polynomial α → Prop) (C : Construct → Prop)
    (I : Interpretation α τ) (J : Interpretation α υ) : Prop where
  constant (c : α) : R (I.constant c) (J.constant c)
  polynomial {p : Polynomial α} {x : τ} :
    P p → I.polynomial p x → ∃ y, J.polynomial p y ∧ R x y
  zero : R I.zero J.zero
  add {x x' : τ} {y y' : υ} : R x y → R x' y' → R (I.add x x') (J.add y y')
  sub {x x' : τ} {y y' : υ} : R x y → R x' y' → R (I.sub x x') (J.sub y y')
  mul {x x' : τ} {y y' : υ} : R x y → R x' y' → R (I.mul x x') (J.mul y y')
  neg {x : τ} {y : υ} : R x y → R (I.neg x) (J.neg y)
  div {x x' z : τ} {y y' : υ} :
    R x y → R x' y' → I.div x x' z → ∃ w, J.div y y' w ∧ R z w
  construct {g : Gadget τ α} {g' : Gadget υ α} {x : τ} :
    C g.construct → g.Related R g' → I.construct g x → ∃ y, J.construct g' y ∧ R x y

section Operands

variable {I : Interpretation α τ} {J : Interpretation α υ} {families : Families α}
variable {os : List (Expr α)} {scope : Scope α} {xs : List τ}

/-- The operands of a construct are carried over when polynomials and listed operands are. -/
theorem OperandsDenote.transport {R : τ → υ → Prop} {P : Polynomial α → Prop}
    (h : OperandsDenote I families os scope (Expr.DenoteAll I families os scope) xs)
    (supplies : families.Supplies P)
    (polynomial : ∀ p x, P p → I.polynomial p x → ∃ y, J.polynomial p y ∧ R x y)
    (each : ∀ o ∈ os, ∀ x, o.Denotes I families scope x →
      ∃ y, o.Denotes J families scope y ∧ R x y) :
    ∃ ys, OperandsDenote J families os scope (Expr.DenoteAll J families os scope) ys ∧
      List.Forall₂ R xs ys := by
  rcases os with _ | ⟨only, _ | ⟨second, rest⟩⟩
  · exact h.elim
  · cases pattern : only.asPattern? with
    | none => simp only [OperandsDenote, pattern] at h
    | some reference =>
        simp only [OperandsDenote, pattern] at h ⊢
        obtain ⟨ps, resolved, nonempty, all⟩ := h
        have allowed := (supplies _ _ scope).2 ps resolved
        obtain ⟨ys, denoted, related⟩ :=
          all.transport fun p member x hx => polynomial p x (allowed p member) hx
        exact ⟨ys, ⟨ps, resolved, nonempty, denoted⟩, related⟩
  · obtain ⟨ys, denoted, related⟩ := (Expr.denoteAll_iff.mp h).transport each
    exact ⟨ys, Expr.denoteAll_iff.mpr denoted, related⟩

/-- A construct has at least one operand. -/
theorem OperandsDenote.nonempty
    (h : OperandsDenote I families os scope (Expr.DenoteAll I families os scope) xs) :
    xs ≠ [] := by
  rintro rfl
  rcases os with _ | ⟨only, _ | ⟨second, rest⟩⟩
  · exact h
  · cases pattern : only.asPattern? with
    | none => simp only [OperandsDenote, pattern] at h
    | some reference =>
        simp only [OperandsDenote, pattern] at h
        obtain ⟨ps, -, nonempty, all⟩ := h
        exact nonempty (List.forall₂_nil_right_iff.mp all)
  · exact absurd (List.forall₂_nil_right_iff.mp (Expr.denoteAll_iff.mp h)) (List.cons_ne_nil _ _)

theorem Expr.Node.operands_ne_nil {e : Expr α} {g : Gadget τ α}
    (h : e.Node I families scope g) : g.operands ≠ [] := by
  cases e with
  | abs _ | piecewise _ _ =>
      obtain ⟨x, -, rfl⟩ := h
      exact List.cons_ne_nil _ _
  | max _ | min _ | and _ | or _ =>
      obtain ⟨xs, operands, rfl⟩ := h
      exact operands.nonempty
  | ifThenElse _ _ _ =>
      obtain ⟨c, t, f, -, -, -, rfl⟩ := h
      exact List.cons_ne_nil _ _
  | _ => exact h.elim

end Operands

theorem Expr.construct?_of_node {I : Interpretation α τ} {families : Families α} {e : Expr α}
    {scope : Scope α} {g : Gadget τ α} (h : e.Node I families scope g) :
    e.construct? = some g.construct := by
  cases e <;> first
    | exact h.elim
    | obtain ⟨_, _, rfl⟩ := h; rfl
    | obtain ⟨_, _, _, _, _, _, rfl⟩ := h; rfl

section References

variable {families families' : Families α}

theorem Families.resolve_congr {name : String} (same : families.find? name = families'.find? name)
    (indices : List (IndexExpr α)) (scope : Scope α) :
    families.resolve name indices scope = families'.resolve name indices scope := by
  simp only [resolve, lookup, same]

theorem Families.resolveMembers_congr {name : String}
    (same : families.find? name = families'.find? name) (indices : List (IndexExpr α))
    (scope : Scope α) :
    families.resolveMembers name indices scope = families'.resolveMembers name indices scope := by
  simp only [resolveMembers, lookup, same]

omit [Scalar α] in
theorem Expr.eq_of_asPattern? {e : Expr α} {family : String} {indices : List (IndexExpr α)}
    (h : e.asPattern? = some (family, indices)) : e = .var family indices := by
  cases e with
  | var family indices =>
      rw [asPattern?] at h
      split at h <;> cases h
      rfl
  | _ => cases h

/-- The operands of a construct depend on the families that they refer to. -/
theorem OperandsDenote.congr {I : Interpretation α τ} {os : List (Expr α)} {scope : Scope α}
    (agree : ∀ o ∈ os, o.Every (Expr.Refers fun name => families.find? name = families'.find? name))
    (each : ∀ o ∈ os, ∀ x, o.Denotes I families scope x ↔ o.Denotes I families' scope x)
    {xs : List τ} :
    OperandsDenote I families os scope (Expr.DenoteAll I families os scope) xs ↔
      OperandsDenote I families' os scope (Expr.DenoteAll I families' os scope) xs := by
  have listed : ∀ os : List (Expr α),
      (∀ o ∈ os, ∀ x, o.Denotes I families scope x ↔ o.Denotes I families' scope x) → ∀ xs,
      (Expr.DenoteAll I families os scope xs ↔ Expr.DenoteAll I families' os scope xs) := by
    intro os each
    induction os with
    | nil => exact fun xs => Iff.rfl
    | cons o os ih =>
        obtain ⟨first, rest⟩ := List.forall_mem_cons.mp each
        intro xs
        simp only [Expr.DenoteAll, first, ih rest]
  rcases os with _ | ⟨only, _ | ⟨second, rest⟩⟩
  · rfl
  · cases pattern : only.asPattern? with
    | none => simp only [OperandsDenote, pattern]
    | some reference =>
        obtain rfl := Expr.eq_of_asPattern? pattern
        have same : families.find? reference.1 = families'.find? reference.1 :=
          agree _ (List.mem_singleton_self _)
        simp only [OperandsDenote, pattern, Families.resolveMembers_congr same]
  · exact listed _ each xs

/-- What an expression denotes depends on the families that it refers to, and on no others. -/
theorem Expr.denotes_congr {I : Interpretation α τ} {e : Expr α}
    (agree : e.Every (Refers fun name => families.find? name = families'.find? name))
    {scope : Scope α} {x : τ} :
    e.Denotes I families scope x ↔ e.Denotes I families' scope x := by
  induction e using Expr.operandInduction generalizing scope x with
  | leaf e leaf =>
      cases e with
      | var family indices =>
          simp only [Denotes, Families.resolve_congr (show _ = _ from agree)]
      | const _ | poly _ | param _ _ | symbol _ => rfl
      | _ => cases leaf
  | sum body generators ih => simp only [Denotes, ih agree.2]
  | add a b iha ihb | sub a b iha ihb | mul a b iha ihb | div a b iha ihb =>
      simp only [Denotes, iha agree.2.1, ihb agree.2.2]
  | neg a ih => simp only [Denotes, ih agree.2]
  | construct e construct ih =>
      have each : ∀ o ∈ e.operands, ∀ x,
          o.Denotes I families scope x ↔ o.Denotes I families' scope x :=
        fun o member x => ih o member (agree.operand member)
      cases e with
      | abs a | piecewise a shape => simp only [Denotes, each a List.mem_cons_self]
      | max os | min os | and os | or os =>
          exact exists_congr fun xs => and_congr_left fun _ =>
            OperandsDenote.congr (fun o member => agree.operand member) each
      | ifThenElse c t f =>
          simp only [Denotes, each c (by simp [operands]), each t (by simp [operands]),
            each f (by simp [operands])]
      | _ => cases construct

end References

namespace Simulates

variable {R : τ → υ → Prop} {P : Polynomial α → Prop} {C : Construct → Prop}
variable {I : Interpretation α τ} {J : Interpretation α υ} {families : Families α}

omit [Scalar α] in
theorem foldl_add (sim : Simulates R P C I J) {xs : List τ} {ys : List υ}
    (h : List.Forall₂ R xs ys) {x : τ} {y : υ} (start : R x y) :
    R (xs.foldl I.add x) (ys.foldl J.add y) := by
  induction h generalizing x y with
  | nil => exact start
  | cons related _ ih => exact ih (sim.add start related)

/-- Gadgets are carried over when operands are. -/
theorem node (sim : Simulates R P C I J) (supplies : families.Supplies P) {e : Expr α}
    {scope : Scope α}
    (each : ∀ o ∈ e.operands, ∀ x, o.Denotes I families scope x →
      ∃ y, o.Denotes J families scope y ∧ R x y)
    {g : Gadget τ α} (h : e.Node I families scope g) :
    ∃ g', e.Node J families scope g' ∧ g.Related R g' := by
  cases e with
  | abs a =>
      obtain ⟨x, hx, rfl⟩ := h
      obtain ⟨y, hy, related⟩ := each a List.mem_cons_self x hx
      exact ⟨.abs y, ⟨y, hy, rfl⟩, .abs related⟩
  | max os =>
      obtain ⟨xs, hxs, rfl⟩ := h
      obtain ⟨ys, hys, related⟩ := hxs.transport supplies (fun _ _ => sim.polynomial) each
      exact ⟨.max ys, ⟨ys, hys, rfl⟩, .max related⟩
  | min os =>
      obtain ⟨xs, hxs, rfl⟩ := h
      obtain ⟨ys, hys, related⟩ := hxs.transport supplies (fun _ _ => sim.polynomial) each
      exact ⟨.min ys, ⟨ys, hys, rfl⟩, .min related⟩
  | and os =>
      obtain ⟨xs, hxs, rfl⟩ := h
      obtain ⟨ys, hys, related⟩ := hxs.transport supplies (fun _ _ => sim.polynomial) each
      exact ⟨.and ys, ⟨ys, hys, rfl⟩, .and related⟩
  | or os =>
      obtain ⟨xs, hxs, rfl⟩ := h
      obtain ⟨ys, hys, related⟩ := hxs.transport supplies (fun _ _ => sim.polynomial) each
      exact ⟨.or ys, ⟨ys, hys, rfl⟩, .or related⟩
  | ifThenElse c t f =>
      obtain ⟨x, y, z, hx, hy, hz, rfl⟩ := h
      obtain ⟨x', hx', relatedC⟩ := each c (by simp [Expr.operands]) x hx
      obtain ⟨y', hy', relatedT⟩ := each t (by simp [Expr.operands]) y hy
      obtain ⟨z', hz', relatedF⟩ := each f (by simp [Expr.operands]) z hz
      exact ⟨.ifThenElse x' y' z', ⟨x', y', z', hx', hy', hz', rfl⟩,
        .ifThenElse relatedC relatedT relatedF⟩
  | piecewise a shape =>
      obtain ⟨x, hx, rfl⟩ := h
      obtain ⟨y, hy, related⟩ := each a List.mem_cons_self x hx
      exact ⟨.piecewise y shape, ⟨y, hy, rfl⟩, .piecewise shape related⟩
  | _ => exact h.elim

/-- What an expression denotes in one interpretation is related to what it denotes in the other. -/
theorem denotes (sim : Simulates R P C I J) (supplies : families.Supplies P) {e : Expr α}
    (embeds : e.Every (Expr.Embeds P)) (uses : e.Every (Expr.Uses C)) {scope : Scope α} {x : τ}
    (h : e.Denotes I families scope x) : ∃ y, e.Denotes J families scope y ∧ R x y := by
  induction e using Expr.operandInduction generalizing scope x with
  | leaf e leaf =>
      cases e with
      | const c =>
          obtain rfl := h
          exact ⟨J.constant c, rfl, sim.constant c⟩
      | poly p => exact sim.polynomial embeds h
      | var family indices =>
          obtain ⟨p, resolved, hx⟩ := h
          obtain ⟨y, hy, related⟩ :=
            sim.polynomial ((supplies family indices scope).1 p resolved) hx
          exact ⟨y, ⟨p, resolved, hy⟩, related⟩
      | param name indices =>
          obtain ⟨c, number, rfl⟩ := h
          exact ⟨J.constant c, ⟨c, number, rfl⟩, sim.constant c⟩
      | symbol name =>
          obtain ⟨c, number, rfl⟩ := h
          exact ⟨J.constant c, ⟨c, number, rfl⟩, sim.constant c⟩
      | _ => cases leaf
  | sum body generators ih =>
      obtain ⟨scopes, xs, expanded, denoted, rfl⟩ := h
      obtain ⟨ys, denoted', related⟩ :=
        denoted.transport fun inner _ x hx => ih embeds.body uses.body hx
      exact ⟨_, ⟨scopes, ys, expanded, denoted', rfl⟩, sim.foldl_add related sim.zero⟩
  | add a b iha ihb =>
      obtain ⟨x, x', hx, hx', rfl⟩ := h
      obtain ⟨y, hy, related⟩ := iha embeds.2.1 uses.2.1 hx
      obtain ⟨y', hy', related'⟩ := ihb embeds.2.2 uses.2.2 hx'
      exact ⟨_, ⟨y, y', hy, hy', rfl⟩, sim.add related related'⟩
  | sub a b iha ihb =>
      obtain ⟨x, x', hx, hx', rfl⟩ := h
      obtain ⟨y, hy, related⟩ := iha embeds.2.1 uses.2.1 hx
      obtain ⟨y', hy', related'⟩ := ihb embeds.2.2 uses.2.2 hx'
      exact ⟨_, ⟨y, y', hy, hy', rfl⟩, sim.sub related related'⟩
  | mul a b iha ihb =>
      obtain ⟨x, x', hx, hx', rfl⟩ := h
      obtain ⟨y, hy, related⟩ := iha embeds.2.1 uses.2.1 hx
      obtain ⟨y', hy', related'⟩ := ihb embeds.2.2 uses.2.2 hx'
      exact ⟨_, ⟨y, y', hy, hy', rfl⟩, sim.mul related related'⟩
  | div a b iha ihb =>
      obtain ⟨x, x', hx, hx', quotient⟩ := h
      obtain ⟨y, hy, related⟩ := iha embeds.2.1 uses.2.1 hx
      obtain ⟨y', hy', related'⟩ := ihb embeds.2.2 uses.2.2 hx'
      obtain ⟨w, quotient', related⟩ := sim.div related related' quotient
      exact ⟨w, ⟨y, y', hy, hy', quotient'⟩, related⟩
  | neg a ih =>
      obtain ⟨x, hx, rfl⟩ := h
      obtain ⟨y, hy, related⟩ := ih embeds.2 uses.2 hx
      exact ⟨_, ⟨y, hy, rfl⟩, sim.neg related⟩
  | construct e construct ih =>
      obtain ⟨g, hg, hx⟩ := (Expr.denotes_iff_node construct).mp h
      obtain ⟨g', hg', related⟩ := sim.node supplies
        (fun o member x hx => ih o member (embeds.operand member) (uses.operand member) hx) hg
      have used : C g.construct := uses.self _ (Expr.construct?_of_node hg)
      obtain ⟨y, hy, related⟩ := sim.construct used related hx
      exact ⟨y, (Expr.denotes_iff_node construct).mpr ⟨g', hg', hy⟩, related⟩

/-- No care has to be taken with polynomials when the operations respect the relation for all of
them. -/
theorem denotes_of_any (sim : Simulates R (fun _ => True) C I J) {e : Expr α}
    (uses : e.Every (Expr.Uses C)) {scope : Scope α} {x : τ} (h : e.Denotes I families scope x) :
    ∃ y, e.Denotes J families scope y ∧ R x y :=
  sim.denotes (fun _ _ _ => ⟨fun _ _ => trivial, fun _ _ _ _ => trivial⟩)
    (Expr.every_of_forall (fun e => by cases e <;> trivial) e) uses h

end Simulates

end MipModel
