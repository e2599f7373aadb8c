import MipModel.Expr.References
import MipModel.Proofs.Integrity
import MipModel.Proofs.Meaning

/-!
# What evaluation depends on

Evaluation reads a model in one place only, where a reference stands for members of a family. All
families that are asked for there are among the names that the expression refers to. Bounds of
ranges, computed indices and the indices of parameters cannot ask for any; they are numbers that
depend on the scope alone. So two models with the same families under the names that an expression
refers to give the same result, be it a polynomial or an error, and the variables of a polynomial
come from these families or from polynomials in the expression (`evaluate_depends`).
-/

namespace MipModel

open Build

variable {α : Type}

namespace Expr

section References

theorem mem_allReferences {name : String} {os : List (Expr α)} :
    name ∈ allReferences os ↔ ∃ o ∈ os, name ∈ o.references := by
  induction os with
  | nil => simp [allReferences]
  | cons o os ih => simp [allReferences, ih]

@[simp] theorem mem_referencedNames {name : String} {e : Expr α} :
    name ∈ e.referencedNames ↔ name ∈ e.references := by
  simp [referencedNames]

/-- An expression refers to what its operands refer to. -/
theorem references_of_operand {e o : Expr α} (member : o ∈ e.operands) {name : String}
    (h : name ∈ o.references) : name ∈ e.references := by
  cases e with
  | add a b | sub a b | mul a b | div a b | ifThenElse c t f =>
      simp only [operands, List.mem_cons, List.not_mem_nil, or_false] at member
      simp only [references, List.mem_append]
      grind
  | neg a | abs a | piecewise a shape => exact List.mem_singleton.mp member ▸ h
  | max os | min os | and os | or os => exact mem_allReferences.mpr ⟨o, member, h⟩
  | _ => cases member

/-- An expression refers to what its parts refer to. -/
theorem references_of_occurs [Scalar α] {root e : Expr α} {scope inner : Scope α}
    (occurs : root.Occurs scope e inner) {name : String} (h : name ∈ e.references) :
    name ∈ root.references := by
  induction occurs with
  | root => exact h
  | operand _ member ih => exact ih (references_of_operand member h)
  | body _ _ _ ih => exact ih h

/-- The families that an expression can ask for are among the names that it refers to. -/
theorem every_refers {S : String → Prop} {e : Expr α} (h : ∀ name ∈ e.references, S name) :
    e.Every (Refers S) := by
  induction e using operandInduction with
  | leaf e leaf =>
      cases e with
      | var family indices => exact h family List.mem_cons_self
      | const _ | poly _ | param _ _ | symbol _ => trivial
      | _ => cases leaf
  | sum body generators ih => exact ⟨trivial, ih h⟩
  | add a b iha ihb | sub a b iha ihb | mul a b iha ihb | div a b iha ihb =>
      exact ⟨trivial, iha fun name left => h name (List.mem_append_left _ left),
        ihb fun name right => h name (List.mem_append_right _ right)⟩
  | neg a ih => exact ⟨trivial, ih h⟩
  | construct e construct ih =>
      refine every_of_operands construct ?_ fun o member =>
        ih o member fun name inside => h name (references_of_operand member inside)
      cases e with
      | var _ _ => cases construct
      | _ => trivial

end References

variable [Scalar α] {families families' : Families α}

/-- Evaluation depends on the families that the expression can ask for, and on no others. -/
theorem evaluate_congr {e : Expr α}
    (agree : e.Every (Refers fun name => families.find? name = families'.find? name))
    (scope : Scope α) : e.evaluate families scope = e.evaluate families' scope := by
  induction e using operandInduction generalizing scope with
  | leaf e leaf =>
      cases e with
      | var family indices => exact Families.resolve_congr agree indices scope
      | const _ | poly _ | param _ _ | symbol _ => rfl
      | _ => cases leaf
  | sum body generators ih => simp only [evaluate, ih agree.2]
  | add a b iha ihb | sub a b iha ihb | mul a b iha ihb | div a b iha ihb =>
      simp only [evaluate, iha agree.2.1, ihb agree.2.2]
  | neg a ih => simp only [evaluate, ih agree.2]
  | construct e construct _ => rw [evaluate_construct construct, evaluate_construct construct]

/-- A sum that can be evaluated adds up what its body evaluates to in the innermost scopes. -/
theorem evaluate_sum_ok {body : Expr α} {generators : List (Generator α)} {scope : Scope α}
    {p : Polynomial α} (evaluated : (sum body generators).evaluate families scope = .ok p) :
    ∃ scopes summands, Generator.expand generators scope = .ok scopes ∧
      List.Forall₂ (fun inner q => body.evaluate families inner = .ok q) scopes summands ∧
      p = Polynomial.sum summands := by
  simp only [evaluate_eq_ok_iff] at evaluated ⊢
  exact evaluated

/-- What an expression evaluates to is made of the variables of its embedded polynomials and of what
its references stand for. -/
theorem over_of_evaluate {S : String → Prop} {root : Expr α} {scope : Scope α}
    (embedded : ∀ q inner, root.Occurs scope (.poly q) inner → q.Over S)
    (referred : ∀ family indices inner q, root.Occurs scope (.var family indices) inner →
      families.resolve family indices inner = .ok q → q.Over S)
    {e : Expr α} {inner : Scope α} (occurs : root.Occurs scope e inner) {p : Polynomial α}
    (evaluated : e.evaluate families inner = .ok p) : p.Over S := by
  induction e using operandInduction generalizing inner p with
  | leaf e leaf =>
      cases e with
      | const c =>
          cases evaluated
          exact Polynomial.over_constant c
      | poly q =>
          cases evaluated
          exact embedded _ inner occurs
      | var family indices => exact referred family indices inner p occurs evaluated
      | param name indices =>
          obtain ⟨_, -, evaluated⟩ := bind_eq_ok_iff.mp evaluated
          obtain ⟨c, -, evaluated⟩ := bind_eq_ok_iff.mp evaluated
          cases evaluated
          exact Polynomial.over_constant c
      | symbol name =>
          obtain ⟨c, -, evaluated⟩ := bind_eq_ok_iff.mp evaluated
          cases evaluated
          exact Polynomial.over_constant c
      | _ => cases leaf
  | sum body generators ih =>
      obtain ⟨scopes, summands, expanded, each, rfl⟩ := evaluate_sum_ok evaluated
      refine Polynomial.over_sum fun q summand => ?_
      obtain ⟨deep, reached, here⟩ := each.exists_left summand
      exact ih (.body occurs expanded reached) here
  | add a b iha ihb | sub a b iha ihb | mul a b iha ihb =>
      obtain ⟨q, left, evaluated⟩ := bind_eq_ok_iff.mp evaluated
      obtain ⟨r, right, evaluated⟩ := bind_eq_ok_iff.mp evaluated
      have first := iha (.operand occurs List.mem_cons_self) left
      have second := ihb (.operand occurs (.tail _ List.mem_cons_self)) right
      cases evaluated
      first
      | exact first.add second
      | exact first.subtract second
      | exact first.multiply second
  | div a b iha ihb =>
      obtain ⟨q, left, evaluated⟩ := bind_eq_ok_iff.mp evaluated
      obtain ⟨r, right, evaluated⟩ := bind_eq_ok_iff.mp evaluated
      exact (iha (.operand occurs List.mem_cons_self) left).divide evaluated
  | neg a ih =>
      obtain ⟨q, operand, evaluated⟩ := bind_eq_ok_iff.mp evaluated
      cases evaluated
      exact (ih (.operand occurs List.mem_cons_self) operand).negate
  | construct e construct _ =>
      cases (evaluate_construct construct families inner).symm.trans evaluated

end Expr

section Models

/-- Two models hold the same families under given names: the same names are taken, by families with
the same entries. -/
def Model.AgreeOn (names : List String) (m n : Model α) : Prop :=
  ∀ name ∈ names, (m.families.find? name).map Family.toList =
    (n.families.find? name).map Family.toList

theorem Family.ext_of_toList {f g : Family α} (name : f.name = g.name)
    (entries : f.toList = g.toList) : f = g := by
  obtain ⟨_, ⟨_⟩⟩ := f
  obtain ⟨_, ⟨_⟩⟩ := g
  obtain rfl := name
  obtain rfl := entries
  rfl

variable [Scalar α] [Naming α] {m n : Model α}

/-- A family is stored under its own name. -/
theorem Model.Reachable.name_of_find? (h : m.Reachable) {name : String} {f : Family α}
    (found : m.families.find? name = some f) : f.name = name :=
  invariant_familyNames.of_reachable h (name, f) (SortedTable.mem_of_find? found)

/-- Families with the same entries under the same name are the same. -/
theorem Model.Reachable.find?_eq (h : m.Reachable) (h' : n.Reachable) {name : String}
    (same : (m.families.find? name).map Family.toList = (n.families.find? name).map Family.toList) :
    m.families.find? name = n.families.find? name := by
  cases found : m.families.find? name with
  | none =>
      rw [found] at same
      exact (Option.map_eq_none_iff.mp same.symm).symm
  | some f =>
      rw [found] at same
      obtain ⟨g, found', entries⟩ := Option.map_eq_some_iff.mp same.symm
      rw [found']
      exact congrArg some (Family.ext_of_toList
        ((h.name_of_find? found).trans (h'.name_of_find? found').symm) entries.symm)

/-- Two models that agree on the families named in an expression give the same result for it, be it
a polynomial or an error. A variable of the polynomial is named in the expression, which has a
polynomial with this variable in a part of it, or it occurs in an entry of a family that is named
there. -/
theorem evaluate_depends (reachable : m.Reachable) (reachable' : n.Reachable) (e : Expr α)
    (scope : Scope α) (agree : m.AgreeOn e.referencedNames n) :
    e.evaluate m.families scope = e.evaluate n.families scope ∧
    ∀ p, e.evaluate m.families scope = .ok p → ∀ x ∈ p.vars,
      (x ∈ e.referencedNames ∧
        ∃ q inner, e.Occurs scope (.poly q) inner ∧ x ∈ q.vars) ∨
      ∃ family ∈ e.referencedNames, ∃ f, m.families.find? family = some f ∧
        ∃ entry ∈ f.toList, x ∈ entry.2.vars := by
  refine ⟨Expr.evaluate_congr (Expr.every_refers fun name refers =>
    reachable.find?_eq reachable' (agree name (Expr.mem_referencedNames.mpr refers))) scope,
    fun p evaluated => Polynomial.over_iff_vars.mp (Expr.over_of_evaluate ?_ ?_ .root evaluated)⟩
  · intro q inner occurs
    refine Polynomial.over_iff_vars.mpr fun x inside => .inl ⟨?_, q, inner, occurs, inside⟩
    exact Expr.mem_referencedNames.mpr
      (Expr.references_of_occurs occurs (Polynomial.mem_vars.mp inside))
  · intro family indices inner q occurs resolved
    obtain ⟨f, found, stands⟩ := Families.exists_of_resolve resolved
    have named : family ∈ e.referencedNames := Expr.mem_referencedNames.mpr
      (Expr.references_of_occurs occurs List.mem_cons_self)
    have member : ∀ q ∈ f.members.values, q.Over fun x => ∃ entry ∈ f.toList, x ∈ entry.2.vars := by
      refine List.forall_mem_map.mpr fun entry stored => ?_
      exact Polynomial.over_iff_vars.mpr fun x inside => ⟨entry, stored, inside⟩
    have made : q.Over fun x => ∃ entry ∈ f.toList, x ∈ entry.2.vars := by
      obtain single | ⟨qs, members, rfl⟩ := stands
      · exact member q single
      · exact Polynomial.over_sum fun r chosen => member r (members r chosen)
    exact made.mono fun x inside => .inr ⟨family, named, f, found, inside⟩

end Models

/-- A sum over members at computed indices, in two models of which the second has a further
family. -/
theorem further_family_ignored :
    let i : Generator Float := .of "i" (.values [1, 2, 3])
    let next : IndexExpr Float := .computed (.add (.symbol "j") (.const 1))
    let e : Expr Float :=
      .sum (.mul (.poly (.var "y")) (.var "x" [next])) [.of "j" (.range (.const 1) (.const 2))]
    let x : Operation Float := .createFamily "x" [i] .binary .empty
    let m : Model Float := .build .minimize .standard [x]
    let n : Model Float := .build .maximize .standard [x, .createFamily "z" [i] .free .empty]
    e.referencedNames = ["x", "y"] ∧ m.families ≠ n.families ∧
      e.evaluate m.families .empty = e.evaluate n.families .empty ∧
      (e.evaluate n.families .empty).map Polynomial.vars =
        .ok ["v00001_x_2", "v00002_x_3", "y"] := by
  intro i next e x m n
  have names : e.referencedNames = ["x", "y"] := by decide +kernel
  have agree : m.AgreeOn e.referencedNames n := by
    rw [names]
    unfold Model.AgreeOn
    decide +kernel
  have same : e.evaluate m.families .empty = e.evaluate n.families .empty :=
    (evaluate_depends (Model.reachable_build _ _ _) (Model.reachable_build _ _ _) e .empty agree).1
  exact ⟨names, by decide +kernel, same, by decide +kernel⟩

end MipModel
