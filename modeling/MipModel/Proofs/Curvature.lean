import MipModel.Proofs.Soundness

/-!
# Curvature

Magnitudes, maxima and minima are bounded from one side only, so the variable of a maximum may lie
above it. Whether the value of a whole expression is then off to a known side depends on how the
construct is embedded: sums keep the side, negation and negative factors turn it around. The rules
of `Expr.Curves` follow the embedding, and they are enough: the result of linearizing a convex
expression is never below the value of the expression, and that of a concave one never above.
-/

namespace MipModel

/-- The sides on which the value of an encoding may be off: above or below. -/
inductive Curvature where
  | convex
  | concave
  deriving DecidableEq, Repr

namespace Curvature

def flip : Curvature → Curvature
  | convex => concave
  | concave => convex

/-- A computed number bounds an exact one from the side of a curvature. -/
def Bounds : Curvature → Rat → Rat → Prop
  | convex, y, z => z ≤ y
  | concave, y, z => y ≤ z

variable {c : Curvature} {y y' z z' k : Rat}

theorem Bounds.refl (c : Curvature) (y : Rat) : c.Bounds y y := by
  cases c <;> exact le_rfl

theorem Bounds.add (h : c.Bounds y z) (h' : c.Bounds y' z') : c.Bounds (y + y') (z + z') := by
  cases c with
  | convex => exact add_le_add h h'
  | concave => exact add_le_add h h'

theorem Bounds.neg (h : c.flip.Bounds y z) : c.Bounds (-y) (-z) := by
  cases c with
  | convex => exact neg_le_neg h
  | concave => exact neg_le_neg h

theorem Bounds.sub (h : c.Bounds y z) (h' : c.flip.Bounds y' z') : c.Bounds (y - y') (z - z') := by
  rw [sub_eq_add_neg, sub_eq_add_neg]
  exact h.add h'.neg

theorem Bounds.scale (h : c.Bounds y z) (nonneg : 0 ≤ k) : c.Bounds (k * y) (k * z) := by
  cases c with
  | convex => exact mul_le_mul_of_nonneg_left h nonneg
  | concave => exact mul_le_mul_of_nonneg_left h nonneg

theorem Bounds.turn (h : c.flip.Bounds y z) (nonpos : k ≤ 0) : c.Bounds (k * y) (k * z) := by
  cases c with
  | convex => exact mul_le_mul_of_nonpos_left h nonpos
  | concave => exact mul_le_mul_of_nonpos_left h nonpos

theorem Bounds.divide (h : c.Bounds y z) (pos : 0 < k) : c.Bounds (y / k) (z / k) := by
  cases c with
  | convex => exact div_le_div_of_nonneg_right h pos.le
  | concave => exact div_le_div_of_nonneg_right h pos.le

end Curvature

namespace Expr

def Arithmetic (e : Expr Rat) : Prop := e.Every (Uses fun _ => False)

/-- The rules of curvature. Factors and divisors are constant expressions in the given scope. -/
inductive Curves : Curvature → Expr Rat → Scope Rat → Prop where
  | arithmetic {c : Curvature} {e : Expr Rat} {scope : Scope Rat} :
      e.Arithmetic → Curves c e scope
  | abs {a : Expr Rat} {scope : Scope Rat} : a.Arithmetic → Curves .convex (.abs a) scope
  | max {os : List (Expr Rat)} {scope : Scope Rat} :
      (∀ o ∈ os, Curves .convex o scope) → Curves .convex (.max os) scope
  | min {os : List (Expr Rat)} {scope : Scope Rat} :
      (∀ o ∈ os, Curves .concave o scope) → Curves .concave (.min os) scope
  | sum {c : Curvature} {body : Expr Rat} {generators : List (Generator Rat)} {scope : Scope Rat} :
      (∀ scopes, Generator.expand generators scope = .ok scopes →
        ∀ inner ∈ scopes, Curves c body inner) → Curves c (.sum body generators) scope
  | add {c : Curvature} {a b : Expr Rat} {scope : Scope Rat} :
      Curves c a scope → Curves c b scope → Curves c (.add a b) scope
  | sub {c : Curvature} {a b : Expr Rat} {scope : Scope Rat} :
      Curves c a scope → Curves c.flip b scope → Curves c (.sub a b) scope
  | neg {c : Curvature} {a : Expr Rat} {scope : Scope Rat} :
      Curves c.flip a scope → Curves c (.neg a) scope
  | scaleLeft {c : Curvature} {f a : Expr Rat} {scope : Scope Rat} {k : Rat} :
      f.constantIn scope = .ok k → 0 ≤ k → Curves c a scope → Curves c (.mul f a) scope
  | scaleRight {c : Curvature} {a f : Expr Rat} {scope : Scope Rat} {k : Rat} :
      f.constantIn scope = .ok k → 0 ≤ k → Curves c a scope → Curves c (.mul a f) scope
  | turnLeft {c : Curvature} {f a : Expr Rat} {scope : Scope Rat} {k : Rat} :
      f.constantIn scope = .ok k → k ≤ 0 → Curves c.flip a scope → Curves c (.mul f a) scope
  | turnRight {c : Curvature} {a f : Expr Rat} {scope : Scope Rat} {k : Rat} :
      f.constantIn scope = .ok k → k ≤ 0 → Curves c.flip a scope → Curves c (.mul a f) scope
  | divide {c : Curvature} {a d : Expr Rat} {scope : Scope Rat} {k : Rat} :
      d.constantIn scope = .ok k → 0 < k → Curves c a scope → Curves c (.div a d) scope

end Expr

section Constants

variable {v : Assignment Rat} {M : Gadget Rat Rat → Rat → Prop} {families : Families Rat}

open MipModel.Polynomial Build

/-- A constant expression denotes its constant and nothing else. -/
theorem denotes_iff_of_constantIn {e : Expr Rat} {scope : Scope Rat} {k : Rat}
    (embeds : e.Every (Expr.Embeds (HasValue v))) (h : e.constantIn scope = .ok k) {y : Rat} :
    e.Denotes (numbers v M) families scope y ↔ y = k := by
  induction e using Expr.operandInduction generalizing k y with
  | leaf e leaf =>
      cases e with
      | const c =>
          cases h
          exact Iff.rfl
      | poly p =>
          rw [Expr.constantIn] at h
          split at h
          next c number =>
            cases h
            obtain ⟨z, means⟩ := HasValue.exists_means embeds
            obtain ⟨-, -, rfl⟩ := means_iff.mp means
            rw [value_of_constantValue? embeds.1 number] at means
            exact ⟨fun other => Means.unique ⟨embeds.1, other⟩ means, fun same => same ▸ means.2⟩
          next => cases h
      | var family indices => cases h
      | param name indices =>
          constructor
          · rintro ⟨c, number, same⟩
            exact same.trans (Except.ok.inj (number.symm.trans h))
          · intro same
            exact ⟨k, h, same⟩
      | symbol name =>
          rw [Expr.constantIn] at h
          constructor
          · rintro ⟨c, number, same⟩
            exact same.trans (Except.ok.inj (number.symm.trans h))
          · intro same
            exact ⟨k, h, same⟩
      | _ => cases leaf
  | sum body generators ih => cases h
  | add a b iha ihb | sub a b iha ihb | mul a b iha ihb =>
      rw [Expr.constantIn] at h
      obtain ⟨k₁, first, h⟩ := bind_eq_ok_iff.mp h
      obtain ⟨k₂, second, h⟩ := bind_eq_ok_iff.mp h
      cases h
      constructor
      · rintro ⟨y₁, y₂, h₁, h₂, rfl⟩
        rw [(iha embeds.2.1 first).mp h₁, (ihb embeds.2.2 second).mp h₂]
        rfl
      · rintro rfl
        exact ⟨k₁, k₂, (iha embeds.2.1 first).mpr rfl, (ihb embeds.2.2 second).mpr rfl, rfl⟩
  | div a b iha ihb =>
      rw [Expr.constantIn] at h
      obtain ⟨k₂, second, h⟩ := bind_eq_ok_iff.mp h
      split at h
      next => cases h
      next nonzero =>
        obtain ⟨k₁, first, h⟩ := bind_eq_ok_iff.mp h
        cases h
        constructor
        · rintro ⟨y₁, y₂, h₁, h₂, -, rfl⟩
          rw [(iha embeds.2.1 first).mp h₁, (ihb embeds.2.2 second).mp h₂]
        · rintro rfl
          exact ⟨k₁, k₂, (iha embeds.2.1 first).mpr rfl, (ihb embeds.2.2 second).mpr rfl,
            by simpa using nonzero, rfl⟩
  | neg a ih =>
      rw [Expr.constantIn] at h
      obtain ⟨k₁, first, h⟩ := bind_eq_ok_iff.mp h
      cases h
      constructor
      · rintro ⟨y₁, h₁, rfl⟩
        rw [(ih embeds.2 first).mp h₁]
        rfl
      · rintro rfl
        exact ⟨k₁, (ih embeds.2 first).mpr rfl, rfl⟩
  | construct e construct ih =>
      cases (Expr.constantIn_construct construct scope).symm.trans h

/-- The value of a constant factor is its constant, whatever constructs mean. -/
theorem constant_value {f : Expr Rat} {scope : Scope Rat} {k y : Rat}
    (embeds : f.Every (Expr.Embeds (HasValue v))) (constant : f.constantIn scope = .ok k)
    (h : f.Denotes (numbers v M) families scope y) (M' : Gadget Rat Rat → Rat → Prop) :
    y = k ∧ f.Denotes (numbers v M') families scope k :=
  ⟨(denotes_iff_of_constantIn embeds constant).mp h,
    (denotes_iff_of_constantIn embeds constant).mpr rfl⟩

end Constants

section Bounds

variable {v : Assignment Rat} {families : Families Rat}

/-- Arithmetic does not depend on what constructs mean. -/
theorem denotes_of_arithmetic {M M' : Gadget Rat Rat → Rat → Prop} {e : Expr Rat}
    {scope : Scope Rat} {y : Rat} (arithmetic : e.Arithmetic)
    (h : e.Denotes (numbers v M) families scope y) :
    e.Denotes (numbers v M') families scope y := by
  have simulates : Simulates Eq (fun _ => True) (fun _ => False) (numbers v M) (numbers v M') := {
    constant := fun _ => rfl
    polynomial := fun _ h => ⟨_, h, rfl⟩
    zero := rfl
    add := by rintro _ _ _ _ rfl rfl; rfl
    sub := by rintro _ _ _ _ rfl rfl; rfl
    mul := by rintro _ _ _ _ rfl rfl; rfl
    neg := by rintro _ _ rfl; rfl
    div := by rintro _ _ _ _ _ rfl rfl h; exact ⟨_, h, rfl⟩
    construct := fun none => none.elim }
  have embeds : e.Every (Expr.Embeds fun _ => True) :=
    Expr.every_of_forall (fun e => by cases e <;> trivial) e
  obtain ⟨_, denoted, rfl⟩ := simulates.denotes
    (fun _ _ _ => ⟨fun _ _ => trivial, fun _ _ _ _ => trivial⟩) embeds arithmetic h
  exact denoted

theorem bounds_foldl_add {c : Curvature} {ys zs : List Rat} (h : List.Forall₂ c.Bounds ys zs)
    {y z : Rat} (start : c.Bounds y z) :
    c.Bounds (ys.foldl (· + ·) y) (zs.foldl (· + ·) z) := by
  induction h generalizing y z with
  | nil => exact start
  | cons head _ ih => exact ih (start.add head)

/-- Operands that are bounded one by one. -/
theorem bounded_operands {c : Curvature} {os : List (Expr Rat)} {scope : Scope Rat}
    (each : ∀ o ∈ os, ∀ y, o.Denotes (numbers v Gadget.Enforced) families scope y →
      ∃ z, o.Denotes (numbers v Gadget.Exact) families scope z ∧ c.Bounds y z) {ys : List Rat}
    (h : OperandsDenote (numbers v Gadget.Enforced) families os scope
      (Expr.DenoteAll (numbers v Gadget.Enforced) families os scope) ys) :
    ∃ zs, OperandsDenote (numbers v Gadget.Exact) families os scope
      (Expr.DenoteAll (numbers v Gadget.Exact) families os scope) zs ∧
        List.Forall₂ c.Bounds ys zs :=
  h.transport (P := fun _ => True) (fun _ _ _ => ⟨fun _ _ => trivial, fun _ _ _ _ => trivial⟩)
    (fun _ y _ h => ⟨y, h, .refl c y⟩) each

/-- An enforced value of an expression bounds an exact one from the side of its curvature. -/
theorem Expr.Curves.bounds {c : Curvature} {e : Expr Rat} {scope : Scope Rat}
    (curves : e.Curves c scope) (embeds : e.Every (Expr.Embeds (Polynomial.HasValue v))) {y : Rat}
    (h : e.Denotes (numbers v Gadget.Enforced) families scope y) :
    ∃ z, e.Denotes (numbers v Gadget.Exact) families scope z ∧ c.Bounds y z := by
  induction curves generalizing y with
  | arithmetic arithmetic => exact ⟨y, denotes_of_arithmetic arithmetic h, .refl _ y⟩
  | abs arithmetic =>
      obtain ⟨x, hx, above⟩ := h
      exact ⟨|x|, ⟨x, denotes_of_arithmetic arithmetic hx, rfl⟩, above⟩
  | @max os scope _ ih =>
      obtain ⟨ys, hys, above⟩ := h
      obtain ⟨zs, hzs, bounded⟩ :=
        bounded_operands (fun o member y => ih o member (embeds.operand member)) hys
      obtain ⟨z, member, greatest⟩ := exists_greatest hzs.nonempty
      obtain ⟨y', member', bound⟩ := bounded.exists_left member
      exact ⟨z, ⟨zs, hzs, member, greatest⟩, le_trans bound (above y' member')⟩
  | @min os scope _ ih =>
      obtain ⟨ys, hys, below⟩ := h
      obtain ⟨zs, hzs, bounded⟩ :=
        bounded_operands (fun o member y => ih o member (embeds.operand member)) hys
      obtain ⟨z, member, least⟩ := exists_least hzs.nonempty
      obtain ⟨y', member', bound⟩ := bounded.exists_left member
      exact ⟨z, ⟨zs, hzs, member, least⟩, le_trans (below y' member') bound⟩
  | sum _ ih =>
      obtain ⟨scopes, ys, expanded, denoted, rfl⟩ := h
      obtain ⟨zs, denoted', bounded⟩ := denoted.transport
        fun inner member y hy => ih scopes expanded inner member embeds.body hy
      exact ⟨_, ⟨scopes, zs, expanded, denoted', rfl⟩, bounds_foldl_add bounded (.refl _ 0)⟩
  | add _ _ iha ihb =>
      obtain ⟨y₁, y₂, h₁, h₂, rfl⟩ := h
      obtain ⟨z₁, d₁, b₁⟩ := iha embeds.2.1 h₁
      obtain ⟨z₂, d₂, b₂⟩ := ihb embeds.2.2 h₂
      exact ⟨_, ⟨z₁, z₂, d₁, d₂, rfl⟩, b₁.add b₂⟩
  | sub _ _ iha ihb =>
      obtain ⟨y₁, y₂, h₁, h₂, rfl⟩ := h
      obtain ⟨z₁, d₁, b₁⟩ := iha embeds.2.1 h₁
      obtain ⟨z₂, d₂, b₂⟩ := ihb embeds.2.2 h₂
      exact ⟨_, ⟨z₁, z₂, d₁, d₂, rfl⟩, b₁.sub b₂⟩
  | neg _ ih =>
      obtain ⟨y₁, h₁, rfl⟩ := h
      obtain ⟨z₁, d₁, b₁⟩ := ih embeds.2 h₁
      exact ⟨_, ⟨z₁, d₁, rfl⟩, b₁.neg⟩
  | scaleLeft constant nonneg _ ih =>
      obtain ⟨y₁, y₂, h₁, h₂, rfl⟩ := h
      obtain ⟨rfl, d₁⟩ := constant_value embeds.2.1 constant h₁ Gadget.Exact
      obtain ⟨z₂, d₂, b₂⟩ := ih embeds.2.2 h₂
      exact ⟨_, ⟨_, z₂, d₁, d₂, rfl⟩, b₂.scale nonneg⟩
  | scaleRight constant nonneg _ ih =>
      obtain ⟨y₁, y₂, h₁, h₂, rfl⟩ := h
      obtain ⟨rfl, d₂⟩ := constant_value embeds.2.2 constant h₂ Gadget.Exact
      obtain ⟨z₁, d₁, b₁⟩ := ih embeds.2.1 h₁
      refine ⟨_, ⟨z₁, _, d₁, d₂, rfl⟩, ?_⟩
      simpa only [numbers, mul_comm] using b₁.scale nonneg
  | turnLeft constant nonpos _ ih =>
      obtain ⟨y₁, y₂, h₁, h₂, rfl⟩ := h
      obtain ⟨rfl, d₁⟩ := constant_value embeds.2.1 constant h₁ Gadget.Exact
      obtain ⟨z₂, d₂, b₂⟩ := ih embeds.2.2 h₂
      exact ⟨_, ⟨_, z₂, d₁, d₂, rfl⟩, b₂.turn nonpos⟩
  | turnRight constant nonpos _ ih =>
      obtain ⟨y₁, y₂, h₁, h₂, rfl⟩ := h
      obtain ⟨rfl, d₂⟩ := constant_value embeds.2.2 constant h₂ Gadget.Exact
      obtain ⟨z₁, d₁, b₁⟩ := ih embeds.2.1 h₁
      refine ⟨_, ⟨z₁, _, d₁, d₂, rfl⟩, ?_⟩
      simpa only [numbers, mul_comm] using b₁.turn nonpos
  | divide constant pos _ ih =>
      obtain ⟨y₁, y₂, h₁, h₂, nonzero, rfl⟩ := h
      obtain ⟨rfl, d₂⟩ := constant_value embeds.2.2 constant h₂ Gadget.Exact
      obtain ⟨z₁, d₁, b₁⟩ := ih embeds.2.1 h₁
      exact ⟨_, ⟨z₁, _, d₁, d₂, nonzero, rfl⟩, b₁.divide pos⟩

variable [Naming Rat] {m m' : Model Rat} {s : Settings Rat} {e : Expr Rat} {scope : Scope Rat}
variable {r : Polynomial Rat} {c : Curvature}

/-- On every assignment that is feasible for the extended model, the result of linearizing a convex
expression evaluates to at least a value of the expression, that of a concave one to at most one. -/
theorem linearize_bounds (injective : Function.Injective (Naming.auxiliary (α := Rat)))
    (reachable : m.Reachable) (run : (Model.linearize s e scope).runOn m = (.ok r, m'))
    (curves : e.Curves c scope) (feasible : m'.isFeasible v 0 = .ok true)
    (embeds : e.Every (Expr.Embeds (Polynomial.HasValue v))) :
    ∃ y z, r.evaluate v = .ok y ∧ e.Denotes (numbers v Gadget.Exact) m.families scope z ∧
      c.Bounds y z := by
  have uses : e.Every (Expr.Uses fun _ => True) := Expr.every_of_forall (fun _ _ _ => trivial) e
  obtain ⟨y, evaluated, denoted⟩ := exists_value_of_enforced injective reachable.consistent run
    (Model.isFeasible_iff.mp feasible) embeds uses fun _ _ _ enforced => enforced
  obtain ⟨z, exact, bound⟩ := curves.bounds embeds denoted
  exact ⟨y, z, evaluated, exact, bound⟩

end Bounds

/-- The negation of a maximum is bounded above where the variable of the maximum is not tight. -/
theorem negated_maximum_bounded :
    let m : Model Rat := .build .minimize .standard
      [.registerAs "x" .binary, .registerAs "y" .binary]
    let e : Expr Rat := .neg (.max [.poly (.var "x"), .poly (.var "y")])
    let v : Assignment Rat := fun name => if name = "x" ∨ name = "y" then some 1 else some 2
    ∃ r m', (Model.linearize .standard e .empty).runOn m = (.ok r, m') ∧
      m'.isFeasible v 0 = .ok true ∧
      ∃ y z, r.evaluate v = .ok y ∧ e.Denotes (numbers v Gadget.Exact) m.families .empty z ∧
        y ≤ z := by
  intro m e v
  obtain ⟨r, run⟩ : ∃ r, (Model.linearize .standard e .empty).runOn m =
      (.ok r, ((Model.linearize .standard e .empty).runOn m).2) :=
    ⟨_, Prod.ext (by rfl) rfl⟩
  have feasible : ((Model.linearize .standard e .empty).runOn m).2.isFeasible v 0 = .ok true := by
    decide +kernel
  have embeds : e.Every (Expr.Embeds (Polynomial.HasValue v)) :=
    ⟨trivial, trivial, ⟨Polynomial.ordered_var "x", Polynomial.over_var rfl⟩,
      ⟨Polynomial.ordered_var "y", Polynomial.over_var rfl⟩, trivial⟩
  have arithmetic (name : String) : (Expr.poly (.var name)).Arithmetic := fun _ h => nomatch h
  have curves : e.Curves .concave .empty := by
    refine .neg (.max fun o member => .arithmetic ?_)
    simp only [List.mem_cons, List.not_mem_nil, or_false] at member
    obtain rfl | rfl := member
    · exact arithmetic "x"
    · exact arithmetic "y"
  exact ⟨r, _, run, feasible, linearize_bounds Spelling.name_injective
    (Model.reachable_build _ _ _) run curves feasible embeds⟩

end MipModel
