import MipModel.Proofs.NestedLoops
import MipModel.Proofs.Reachability
import MipModel.Proofs.Rows
import MipModel.Proofs.Spelling

/-!
# Reading expressions directly

An expression without constructs beyond arithmetic can be read as a number without any polynomial in
between: a reference is the value of a variable, a sum runs its generators as nested loops, and a
quotient is the quotient of two numbers (`Expr.valueIn`). Direct evaluation computes with
polynomials instead, and expands generators level by level. Both come to the same number
(`evaluate_eq_valueIn`).

The scopes of an expansion are those of nested loops, so the two ways through generators agree by
induction over the generators (`loop_of_nestedLoops`). All else is that polynomials mean numbers.
-/

namespace MipModel

open Build MipModel.Polynomial

section Reading

/-- The value of a member of a family, which is a variable. -/
def memberValue (v : Assignment Rat) (p : Polynomial Rat) : Outcome Rat Rat :=
  match p.asVariable? with
  | some name => Polynomial.lookup v name
  | none => .error (.undefinedVariable p.text)

/-- The value of a reference: that of the member at a tuple, or the sum over the members that fit. -/
def referenceValue (v : Assignment Rat) (families : Families Rat) (name : String)
    (indices : List (IndexExpr Rat)) (scope : Scope Rat) : Outcome Rat Rat := do
  let family ← families.lookup name
  let pattern ← IndexExpr.resolveAll scope indices
  if pattern.hasWildcard then
    return (← (family.fitting pattern).mapM fun member => memberValue v member.2).sum
  match pattern.index? with
  | some index => memberValue v (← family.lookup index)
  | none => throw (.indexNotFound name pattern.text)

def loop (body : Scope Rat → Outcome Rat Rat) : List (Generator Rat) → Scope Rat → Outcome Rat Rat
  | [], scope => body scope
  | g :: rest, scope => do
    let values ← g.domain.valuesIn scope
    return (← values.mapM fun n => loop body rest (scope.bind g.symbol n)).sum

/-- The number that an expression stands for under an assignment. -/
def Expr.valueIn (v : Assignment Rat) (families : Families Rat) :
    Expr Rat → Scope Rat → Outcome Rat Rat
  | .const c, _ => .ok c
  | .poly p, _ => p.evaluate v
  | .var name indices, scope => referenceValue v families name indices scope
  | .param name indices, scope => do scope.parameter name (← IndexExpr.resolveAll scope indices)
  | .symbol name, scope => scope.number name
  | .sum body generators, scope => loop (fun inner => body.valueIn v families inner) generators scope
  | .add a b, scope => do return (← a.valueIn v families scope) + (← b.valueIn v families scope)
  | .sub a b, scope => do return (← a.valueIn v families scope) - (← b.valueIn v families scope)
  | .mul a b, scope => do return (← a.valueIn v families scope) * (← b.valueIn v families scope)
  | .div a b, scope => do
    let dividend ← a.valueIn v families scope
    let divisor ← b.valueIn v families scope
    if divisor = 0 then throw .divisionByZero
    return dividend / divisor
  | .neg a, scope => do return -(← a.valueIn v families scope)
  | e, _ => .error (.unsupported e.text)

end Reading

section Loops

variable {body : Scope Rat → Outcome Rat Rat} {generators : List (Generator Rat)}

/-- A loop sums what its body yields in the scopes of nested loops. -/
theorem loop_of_nestedLoops {scope : Scope Rat} {ys : List Rat}
    (runs : Generator.Runs generators scope)
    (values : List.Forall₂ (fun inner y => body inner = .ok y)
      (Generator.nestedLoops generators scope) ys) :
    loop body generators scope = .ok ys.sum := by
  induction generators generalizing scope ys with
  | nil =>
      obtain ⟨y, rest, read, none, rfl⟩ := List.forall₂_cons_left_iff.mp values
      cases none
      rw [List.sum_singleton]
      exact read
  | cons g generators ih =>
      obtain ⟨members, domain, inside⟩ := runs
      rw [Generator.nestedLoops_cons domain] at values
      -- Every value of this loop contributes the sum over the scopes that it leads to.
      have blocks : ∃ zs, List.Forall₂ (fun n z => loop body generators (scope.bind g.symbol n) =
          .ok z) members zs ∧ zs.sum = ys.sum := by
        clear domain
        induction members generalizing ys with
        | nil =>
            rw [List.forall₂_nil_left_iff.mp values]
            exact ⟨[], .nil, rfl⟩
        | cons n members more =>
            obtain ⟨first, later⟩ := List.forall_mem_cons.mp inside
            obtain ⟨here, rest, rfl, block, blocks⟩ := values.exists_append
            obtain ⟨zs, loops, total⟩ := more blocks later
            exact ⟨here.sum :: zs, .cons (ih first block) loops, by simp [total]⟩
      obtain ⟨zs, loops, total⟩ := blocks
      rw [loop, domain, ← total]
      exact congrArg (List.sum <$> ·) (mapM_eq_ok_iff.mpr loops)

end Loops

section Agreement

variable {v : Assignment Rat} {families : Families Rat} {vars : Registry (Variable Rat)}

/-- Every variable among the members of a family has a value, if there is the family. -/
def Families.Assigned (families : Families Rat) (v : Assignment Rat) (name : String) : Prop :=
  ∀ f, families.find? name = some f → ∀ p ∈ f.members.values, p.Over v.Assigns

/-- A member means its value. -/
theorem means_of_member {f : Family Rat} (registered : f.Registered vars) {p : Polynomial Rat}
    (member : p ∈ f.members.values) (assigned : p.Over v.Assigns) :
    ∃ y, p.Means v y ∧ memberValue v p = .ok y := by
  obtain ⟨x, isVariable, -⟩ := registered p member
  obtain rfl := isVariable.eq_var fun _ => eq_of_beq
  have here : v.Assigns x :=
    assigned (Monomial.var x) (List.mem_singleton_self _) x (List.mem_singleton_self x)
  obtain ⟨y, value⟩ := Option.isSome_iff_exists.mp here
  refine ⟨y, means_var value, ?_⟩
  show Polynomial.lookup v x = .ok y
  rw [Polynomial.lookup, value]

/-- What a reference stands for means its value. -/
theorem means_of_resolve (registered : ∀ f ∈ families.values, f.Registered vars) {name : String}
    (assigned : families.Assigned v name) {indices : List (IndexExpr Rat)} {scope : Scope Rat}
    {p : Polynomial Rat} (resolved : families.resolve name indices scope = .ok p) :
    ∃ y, p.Means v y ∧ referenceValue v families name indices scope = .ok y := by
  obtain ⟨f, found, resolved⟩ := bind_eq_ok_iff.mp resolved
  obtain ⟨pattern, components, resolved⟩ := bind_eq_ok_iff.mp resolved
  have values : ∀ p ∈ f.members.values, ∃ y, p.Means v y ∧ memberValue v p = .ok y :=
    fun p member => means_of_member (registered f (Families.mem_values_of_lookup found)) member
      (assigned f (Families.find?_of_lookup found) p member)
  split at resolved
  next wildcard =>
    cases resolved
    have members : ∀ e ∈ f.fitting pattern, ∀ e', e = e' →
        ∃ y, e.2.Means v y ∧ memberValue v e'.2 = .ok y := by
      rintro e fits _ rfl
      exact values e.2 (List.mem_map_of_mem (List.mem_filter.mp fits).1)
    obtain ⟨ys, means, summands⟩ := (List.forall₂_same.mpr fun e _ => rfl).transport members
    refine ⟨ys.sum, means_sum (List.forall₂_map_left_iff.mpr means), ?_⟩
    refine bind_eq_ok_iff.mpr ⟨f, found, bind_eq_ok_iff.mpr ⟨pattern, components, ?_⟩⟩
    rw [if_pos wildcard]
    exact congrArg (List.sum <$> ·) (mapM_eq_ok_iff.mpr summands)
  next fixed =>
    split at resolved
    next index here =>
      obtain ⟨y, means, value⟩ := values p (Family.mem_values_of_lookup resolved)
      refine ⟨y, means, bind_eq_ok_iff.mpr ⟨f, found, bind_eq_ok_iff.mpr ⟨pattern, components, ?_⟩⟩⟩
      rw [if_neg fixed, here]
      exact bind_eq_ok_iff.mpr ⟨p, resolved, value⟩
    next => cases resolved

/-- What direct evaluation yields has the value that the expression is read as. -/
theorem means_of_evaluate (registered : ∀ f ∈ families.values, f.Registered vars) {e : Expr Rat}
    (assigned : e.Every (Expr.Refers (families.Assigned v)))
    (embeds : e.Every (Expr.Embeds (HasValue v))) {scope : Scope Rat} {p : Polynomial Rat}
    (h : e.evaluate families scope = .ok p) :
    ∃ y, p.Means v y ∧ e.valueIn v families scope = .ok y := by
  rw [Expr.evaluate_eq_ok_iff] at h
  induction e using Expr.operandInduction generalizing scope p with
  | leaf e leaf =>
      cases e with
      | const c =>
          obtain rfl := h
          exact ⟨c, means_constant c, rfl⟩
      | poly q =>
          obtain rfl : p = q := h
          obtain ⟨y, means⟩ := HasValue.exists_means (show p.HasValue v from embeds)
          exact ⟨y, means, means.2⟩
      | var family indices =>
          obtain ⟨q, resolved, same⟩ := h
          obtain rfl : p = q := same
          exact means_of_resolve registered assigned resolved
      | param name indices =>
          obtain ⟨c, number, rfl⟩ := h
          exact ⟨c, means_constant c, number⟩
      | symbol name =>
          obtain ⟨c, number, rfl⟩ := h
          exact ⟨c, means_constant c, number⟩
      | _ => cases leaf
  | sum body generators ih =>
      obtain ⟨scopes, summands, expanded, denoted, rfl⟩ := h
      obtain ⟨ys, read, means⟩ := denoted.transport fun inner _ q hq =>
        let ⟨y, means, read⟩ := ih assigned.body embeds.body hq
        ⟨y, read, means⟩
      have total : (summands.foldl Polynomial.add zero).Means v ys.sum := means_sum means
      have nonempty : generators ≠ [] := by
        rintro rfl
        cases expanded
      obtain ⟨-, runs, rfl⟩ := (Generator.expand_eq_ok_iff nonempty).mp expanded
      exact ⟨ys.sum, total, loop_of_nestedLoops runs read⟩
  | add a b iha ihb =>
      obtain ⟨q, r, hq, hr, rfl⟩ := h
      obtain ⟨y, means, read⟩ := iha assigned.2.1 embeds.2.1 hq
      obtain ⟨z, means', read'⟩ := ihb assigned.2.2 embeds.2.2 hr
      exact ⟨y + z, means.add means', by rw [Expr.valueIn, read, read']; rfl⟩
  | sub a b iha ihb =>
      obtain ⟨q, r, hq, hr, rfl⟩ := h
      obtain ⟨y, means, read⟩ := iha assigned.2.1 embeds.2.1 hq
      obtain ⟨z, means', read'⟩ := ihb assigned.2.2 embeds.2.2 hr
      exact ⟨y - z, means.subtract means', by rw [Expr.valueIn, read, read']; rfl⟩
  | mul a b iha ihb =>
      obtain ⟨q, r, hq, hr, rfl⟩ := h
      obtain ⟨y, means, read⟩ := iha assigned.2.1 embeds.2.1 hq
      obtain ⟨z, means', read'⟩ := ihb assigned.2.2 embeds.2.2 hr
      exact ⟨y * z, means.multiply means', by rw [Expr.valueIn, read, read']; rfl⟩
  | div a b iha ihb =>
      obtain ⟨q, r, hq, hr, quotient⟩ := h
      obtain ⟨y, means, read⟩ := iha assigned.2.1 embeds.2.1 hq
      obtain ⟨z, means', read'⟩ := ihb assigned.2.2 embeds.2.2 hr
      obtain ⟨nonzero, means''⟩ := means.divide means' quotient
      refine ⟨y / z, means'', bind_eq_ok_iff.mpr ⟨y, read, bind_eq_ok_iff.mpr ⟨z, read', ?_⟩⟩⟩
      exact if_neg nonzero
  | neg a ih =>
      obtain ⟨q, hq, rfl⟩ := h
      obtain ⟨y, means, read⟩ := ih assigned.2 embeds.2 hq
      exact ⟨-y, means.negate, by rw [Expr.valueIn, read]; rfl⟩
  | construct e construct ih =>
      obtain ⟨g, -, none⟩ := (Expr.denotes_iff_node construct).mp h
      exact none.elim

/-- What direct evaluation yields on a reachable model evaluates to the number that the expression is
read as, under every assignment of the variables that the expression refers to. -/
theorem evaluate_eq_valueIn [Naming Rat] {m : Model Rat} (reachable : m.Reachable) {e : Expr Rat}
    {scope : Scope Rat} {q : Polynomial Rat} (evaluated : e.evaluate m.families scope = .ok q)
    (assigned : e.Every (Expr.Refers (m.families.Assigned v)))
    (embeds : e.Every (Expr.Embeds (HasValue v))) :
    ∃ y, q.evaluate v = .ok y ∧ e.valueIn v m.families scope = .ok y := by
  obtain ⟨y, means, read⟩ :=
    means_of_evaluate reachable.consistent.members assigned embeds evaluated
  exact ⟨y, means.2, read⟩

end Agreement

/-- Two loops, of which the inner one starts at the symbol of the outer one, weights and divisors
from both of them, and a sum over a row of the family. -/
theorem triangle_eq_valueIn :
    let i : Generator Rat := .of "i" (.range (.const 1) (.const 2))
    let j : Generator Rat := .of "j" (.range (.symbol "i") (.const 3))
    let m : Model Rat := .build .minimize .standard [.createFamily "x" [i, j] .free .empty]
    let member : Expr Rat := .var "x" [.symbol "i", .symbol "j"]
    let e : Expr Rat := .add (.sum (.div (.mul (.symbol "i") member) (.symbol "j")) [i, j])
      (.var "x" [.wildcard, .literal 2])
    let v : Assignment Rat := fun name => if name = "v00001_x_1_2" then some 5 else some 1
    ∃ q, e.evaluate m.families .empty = .ok q ∧ q.evaluate v = .ok (23 / 2) ∧
      e.valueIn v m.families .empty = .ok (23 / 2) := by
  intro i j m member e v
  have reachable : m.Reachable := Model.reachable_build _ _ _
  have everything (name : String) : v.Assigns name := by
    by_cases special : name = "v00001_x_1_2" <;> simp [Assignment.Assigns, v, special]
  have assigned : e.Every (Expr.Refers (m.families.Assigned v)) := by
    have families (name : String) : m.families.Assigned v name :=
      fun f _ p _ _ _ x _ => everything x
    exact Expr.every_of_forall (fun e => by cases e <;> first | exact families _ | trivial) e
  have embeds : e.Every (Expr.Embeds (HasValue v)) :=
    ⟨trivial, ⟨trivial, trivial, ⟨trivial, trivial, trivial⟩, trivial⟩, trivial⟩
  rcases evaluated : e.evaluate m.families .empty with err | q
  · have failed : (e.evaluate m.families .empty).isOk = true := by decide +kernel
    rw [evaluated] at failed
    cases failed
  obtain ⟨y, value, read⟩ := evaluate_eq_valueIn reachable evaluated assigned embeds
  have number : e.valueIn v m.families .empty = .ok (23 / 2) := by decide +kernel
  obtain rfl : y = 23 / 2 := Except.ok.inj (read.symm.trans number)
  exact ⟨q, rfl, value, read⟩

end MipModel
