import MipModel.Proofs.Contexts
import MipModel.Proofs.Plans
import MipModel.Proofs.PlainExpressions
import MipModel.Scalar.Binary64

/-!
# Failure paths

Evaluation and linearization are two walks over the same expressions. Both compute operands from the
first to the last and summands in the order of the scopes, so a walk that fails has failed at one
place: past the operands and summands that were computed before it (`Walk.Fails`). The error raised
there carries no bindings. It is passed on by the sums around the place, and the innermost of their
stages that has bindings to offer is the only one that is heard (`visit_raises_iff`).

Away from sums, both walks proceed alike: they compute some operands and go on with the results, and
whatever fails then is raised without bindings (`visit_goesOn`).
-/

namespace MipModel

open Model Build

variable {α : Type}

namespace Expr

def isSum : Expr α → Bool
  | .sum .. => true
  | _ => false

theorem operands_of_isLeaf {e : Expr α} (leaf : e.isLeaf = true) : e.operands = [] := by
  cases e <;> first | rfl | cases leaf

/-- Induction over parts that tells apart sums from everything else. -/
@[elab_as_elim]
theorem partInduction {motive : Expr α → Prop}
    (sum : ∀ body generators, motive body → motive (.sum body generators))
    (other : ∀ e, e.isSum = false → (∀ o ∈ e.operands, motive o) → motive e) (e : Expr α) :
    motive e := by
  have pair {a b : Expr α} (first : motive a) (second : motive b) : ∀ o ∈ [a, b], motive o :=
    List.forall_mem_cons.mpr ⟨first, List.forall_mem_singleton.mpr second⟩
  induction e using operandInduction with
  | leaf e leaf =>
      refine other e (by cases e <;> first | rfl | cases leaf) fun o member => ?_
      rw [operands_of_isLeaf leaf] at member
      cases member
  | sum body generators ih => exact sum body generators ih
  | add a b iha ihb | sub a b iha ihb | mul a b iha ihb | div a b iha ihb =>
      exact other _ rfl (pair iha ihb)
  | neg a ih => exact other _ rfl (List.forall_mem_singleton.mpr ih)
  | construct e construct ih =>
      exact other e (by cases e <;> first | rfl | cases construct) ih

end Expr

section Conclusions

variable {β γ : Type} {m m' middle : Model α} {e : Error α}

/-- A step starts with another one and goes on with its result. Going on can only fail with errors
that carry no bindings. -/
def Build.GoesOn (first : Build α β) (step : Build α γ) : Prop :=
  ∃ finish, (∀ b, RaisesBare (finish b)) ∧ step = first >>= finish

namespace Build.GoesOn

theorem fails {first : Build α β} {step : Build α γ} (h : GoesOn first step)
    (failed : first.runOn m = (.error e, m')) : step.runOn m = (.error e, m') := by
  obtain ⟨finish, -, rfl⟩ := h
  exact runOn_bind_error.mpr (.inl failed)

theorem isBare {first : Build α β} {step : Build α γ} (h : GoesOn first step) {b : β}
    (passed : first.runOn m = (.ok b, middle)) (failed : step.runOn m = (.error e, m')) :
    e.IsBare := by
  obtain ⟨finish, bare, rfl⟩ := h
  obtain stopped | ⟨b', middle', -, stopped⟩ := runOn_bind_error.mp failed
  · cases passed.symm.trans stopped
  · exact bare b' middle' e (congrArg Prod.fst stopped)

/-- A step that only raises errors without bindings may be seen as going on from nothing. -/
theorem of_raisesBare {f : γ → Build α β} {step : Build α β} (bare : RaisesBare step) :
    GoesOn (([] : List γ).mapM f) step :=
  ⟨fun _ => step, fun _ => bare, rfl⟩

end Build.GoesOn
end Conclusions

variable [Scalar α]

namespace Expr

/-- What arithmetic makes of the polynomials of its operands. -/
def combine : Expr α → List (Polynomial α) → Outcome α (Polynomial α)
  | .add .., [p, q] => return p.add q
  | .sub .., [p, q] => return p.subtract q
  | .mul .., [p, q] => return p.multiply q
  | .div .., [p, q] => p.divide q
  | .neg _, [p] => return p.negate
  | _, _ => return .zero

theorem failsWith_combine (e : Expr α) (ps : List (Polynomial α)) :
    FailsWith Error.IsBare (e.combine ps) := by
  unfold combine
  split
  all_goals first | exact .ok _ | exact Polynomial.failsWith_divide _ _

/-- Arithmetic evaluates all of its operands before it combines them. -/
theorem evaluate_eq_combine {e : Expr α} (compound : e.isLeaf = false) (noSum : e.isSum = false)
    (plain : e.isConstruct = false) (families : Families α) (scope : Scope α) :
    e.evaluate families scope =
      (e.operands.mapM fun o => o.evaluate families scope) >>= e.combine := by
  cases e with
  | add a b | sub a b | mul a b | div a b => simp [evaluate, operands, combine, List.mapM_cons]
  | neg a => simp [evaluate, operands, combine, List.mapM_cons]
  | sum body generators => cases noSum
  | const c | poly p | var family indices | param name indices | symbol name => cases compound
  | _ => cases plain

end Expr

/-- A step that yields what an expression evaluates to is its evaluation. -/
theorem Model.evaluate_eq {e : Expr α} {scope : Scope α} {step : Build α (Polynomial α)}
    (h : ∀ m, Yields m step (e.evaluate m.families scope)) : Model.evaluate e scope = step :=
  funext fun m => (h m).symm

theorem Build.yields_evaluate (m : Model α) (e : Expr α) (scope : Scope α) :
    Yields m (Model.evaluate e scope) (e.evaluate m.families scope) := rfl

variable [Naming α]

/-- The ways to walk over an expression. -/
inductive Walk (α : Type) where
  /-- Direct evaluation. -/
  | evaluation
  /-- Linearization, which installs gadgets. -/
  | linearization (s : Settings α)

namespace Walk

/-- The recursion over expressions. -/
def visit : Walk α → Expr α → Scope α → Build α (Polynomial α)
  | evaluation, e, scope => Model.evaluate e scope
  | linearization s, e, scope => e.linearize s scope

/-- The step that is offered to callers. -/
def step : Walk α → Expr α → Scope α → Build α (Polynomial α)
  | evaluation, e, scope => Model.evaluate e scope
  | linearization s, e, scope => Model.linearize s e scope

omit [Naming α] in
/-- The operands that a walk computes. Evaluation refuses constructs as they stand. Linearization
does not compute operands that are too few, nor the argument of a function of a shape that it
refuses. -/
def computes (w : Walk α) (e : Expr α) : List (Expr α) :=
  match w, e with
  | evaluation, e => if e.isConstruct then [] else e.operands
  | linearization _, .max os | linearization _, .min os | linearization _, .and os
  | linearization _, .or os => if os.length < 2 then [] else os
  | linearization _, .piecewise a shape => if shape.check.isOk then [a] else []
  | linearization _, e => e.operands

/-- `w.Fails e scope m trail r`: a walk over an expression fails for the first time at some place,
with an error `r` that is raised there. The trail tells what the sums around that place were doing,
the innermost first; it is empty if there is no sum on the path to that place. -/
inductive Fails (w : Walk α) :
    Expr α → Scope α → Model α → List (Stage α) → Error α → Prop where
  /-- All operands that are computed have been computed, and the expression raises an error. -/
  | raised {e : Expr α} {scope : Scope α} {m middle m' : Model α} {ps : List (Polynomial α)}
      {r : Error α} :
      e.isSum = false → InTurn (fun o => w.visit o scope) (w.computes e) m ps middle →
      (w.visit e scope).runOn m = (.error r, m') → w.Fails e scope m [] r
  /-- The operands before have been computed, and there is a failure in this one. -/
  | operand {e o : Expr α} {scope : Scope α} {m middle : Model α} {ps : List (Polynomial α)}
      {before after : List (Expr α)} {trail : List (Stage α)} {r : Error α} :
      w.computes e = before ++ o :: after → InTurn (fun o => w.visit o scope) before m ps middle →
      w.Fails o scope middle trail r → w.Fails e scope m trail r
  /-- The scopes of a sum cannot be listed. -/
  | expansion {body : Expr α} {generators : List (Generator α)} {scope : Scope α} {m : Model α}
      {stage : Stage α} {r : Error α} :
      Generator.Fails generators scope stage r → w.Fails (.sum body generators) scope m [stage] r
  /-- The summands before have been computed, and there is a failure in this one. -/
  | summand {body : Expr α} {generators : List (Generator α)} {scope inner : Scope α}
      {m middle : Model α} {ps : List (Polynomial α)} {before after : List (Scope α)}
      {trail : List (Stage α)} {r : Error α} :
      Generator.expand generators scope = .ok (before ++ inner :: after) →
      InTurn (fun s => w.visit body s) before m ps middle →
      w.Fails body inner middle trail r →
      w.Fails (.sum body generators) scope m (trail ++ [.summand body inner]) r

variable {w : Walk α} {scope : Scope α} {m m' : Model α} {r err : Error α} {trail : List (Stage α)}

section Conclusion

variable (w : Walk α) {e : Expr α} (scope : Scope α)

theorem visit_eq_combine (compound : e.isLeaf = false) (noSum : e.isSum = false)
    (plain : e.isConstruct = false) :
    w.visit e scope =
      (e.operands.mapM fun o => w.visit o scope) >>= fun ps => liftM (e.combine ps) := by
  cases w with
  | evaluation =>
      refine Model.evaluate_eq fun m => ?_
      rw [e.evaluate_eq_combine compound noSum plain]
      exact (Yields.mapM fun o _ => yields_evaluate m o scope).bind fun ps _ => .liftM _
  | linearization s =>
      cases e with
      | add a b | sub a b | mul a b | div a b | neg a =>
          simp [visit, Expr.linearize, Expr.operands, Expr.combine, List.mapM_cons]
      | sum body generators => cases noSum
      | const c | poly p | var family indices | param name indices | symbol name => cases compound
      | _ => cases plain

omit [Naming α] in
theorem computes_of_isLeaf (leaf : e.isLeaf = true) : w.computes e = [] := by
  cases w with
  | evaluation =>
      show (if e.isConstruct then [] else e.operands) = []
      rw [Expr.operands_of_isLeaf leaf, ite_self]
  | linearization s => cases e <;> first | rfl | cases leaf

theorem raisesBare_visit_of_isLeaf (leaf : e.isLeaf = true) : RaisesBare (w.visit e scope) := by
  have evaluates : RaisesBare (Model.evaluate e scope) := fun m =>
    (Expr.failsWith_leaf m.families leaf scope).imp fun _ => Error.AboutReference.isBare
  cases w with
  | evaluation => exact evaluates
  | linearization s => cases e <;> first | exact evaluates | cases leaf

/-- The constructs of any number of operands go on alike. -/
theorem goesOn_install_operandsOf (s : Settings α) (construct : Construct) (os : List (Expr α))
    (gadget : List (Polynomial α) → Gadget (Polynomial α) α) :
    GoesOn ((if os.length < 2 then [] else os).mapM fun o => o.linearize s scope)
      (operandsOf construct os scope (Expr.linearizeAll s os scope) >>= fun ps =>
        install s (gadget ps)) := by
  by_cases few : os.length < 2
  · rw [if_pos few]
    refine .of_raisesBare ((raisesBare_operandsOf construct few).bind fun ps => ?_)
    exact raisesBare_install s (gadget ps)
  · rw [if_neg few, ← linearizeAll_eq_mapM]
    refine ⟨fun ps => install s (gadget ps), fun ps => raisesBare_install s (gadget ps), ?_⟩
    obtain _ | ⟨o, _ | ⟨o', rest⟩⟩ := os
    · exact absurd Nat.two_pos few
    · exact absurd Nat.one_lt_two few
    · rfl

/-- Arithmetic goes on with what it makes of its operands. -/
theorem goesOn_of_arithmetic (compound : e.isLeaf = false) (noSum : e.isSum = false)
    (plain : e.isConstruct = false) :
    GoesOn ((w.computes e).mapM fun o => w.visit o scope) (w.visit e scope) := by
  have operands : w.computes e = e.operands := by
    cases w with
    | evaluation => exact if_neg (by simp [plain])
    | linearization s => cases e <;> first | rfl | cases plain
  rw [operands]
  exact ⟨fun ps => liftM (e.combine ps), fun ps => .liftM (e.failsWith_combine ps),
    w.visit_eq_combine scope compound noSum plain⟩

/-- Evaluation goes on from nothing to refuse a construct. -/
theorem goesOn_evaluation_construct (construct : e.isConstruct = true) :
    GoesOn ((evaluation.computes e).mapM fun o => evaluation.visit o scope)
      (evaluation.visit e scope) := by
  have none : evaluation.computes e = [] := if_pos construct
  rw [none]
  refine .of_raisesBare fun m => ?_
  show FailsWith Error.IsBare (e.evaluate m.families scope)
  rw [Expr.evaluate_construct construct]
  exact .error trivial

/-- A function of a shape that is refused is refused before its argument is looked at. -/
theorem goesOn_linearization_piecewise (s : Settings α) (a : Expr α) (shape : Piecewise α) :
    GoesOn (((linearization s).computes (.piecewise a shape)).mapM fun o =>
      (linearization s).visit o scope) ((linearization s).visit (.piecewise a shape) scope) := by
  cases checked : shape.check with
  | error reason =>
      have none : (linearization s).computes (.piecewise a shape) = [] := by
        simp [computes, checked, Except.isOk, Except.toBool]
      have refused : (linearization s).visit (.piecewise a shape) scope =
          liftM (.error reason : Outcome α (Polynomial α)) := by
        rw [visit, Expr.linearize, checked]
        rfl
      rw [none, refused]
      exact .of_raisesBare (.liftM (.error (shape.failsWith_check reason checked)))
  | ok u =>
      have single : (linearization s).computes (.piecewise a shape) = [a] := by
        simp [computes, checked, Except.isOk, Except.toBool]
      rw [single]
      refine ⟨fun ps => install s (.piecewise (ps.getD 0 .zero) shape),
        fun ps => raisesBare_install s _, ?_⟩
      rw [visit, Expr.linearize, checked]
      simp only [List.mapM_cons, List.mapM_nil, bind_assoc, pure_bind]
      rfl

/-- Linearization goes on with the installation of a gadget. -/
theorem goesOn_linearization_construct (s : Settings α) (construct : e.isConstruct = true) :
    GoesOn (((linearization s).computes e).mapM fun o => (linearization s).visit o scope)
      ((linearization s).visit e scope) := by
  cases e with
  | abs a =>
      refine ⟨fun ps => install s (.abs (ps.getD 0 .zero)), fun ps => raisesBare_install s _, ?_⟩
      simp [visit, Expr.linearize, computes, Expr.operands]
  | ifThenElse c t f =>
      refine ⟨fun ps => install s (.ifThenElse (ps.getD 0 .zero) (ps.getD 1 .zero)
        (ps.getD 2 .zero)), fun ps => raisesBare_install s _, ?_⟩
      simp [visit, Expr.linearize, computes, Expr.operands]
  | piecewise a shape => exact goesOn_linearization_piecewise scope s a shape
  | max os => exact goesOn_install_operandsOf scope s .max os .max
  | min os => exact goesOn_install_operandsOf scope s .min os .min
  | and os => exact goesOn_install_operandsOf scope s .and os .and
  | or os => exact goesOn_install_operandsOf scope s .or os .or
  | _ => cases construct

/-- Away from sums, a walk computes operands and goes on with their polynomials. -/
theorem visit_goesOn (noSum : e.isSum = false) :
    GoesOn ((w.computes e).mapM fun o => w.visit o scope) (w.visit e scope) := by
  cases leaf : e.isLeaf with
  | true =>
      rw [w.computes_of_isLeaf leaf]
      exact .of_raisesBare (w.raisesBare_visit_of_isLeaf scope leaf)
  | false =>
      cases construct : e.isConstruct with
      | false => exact w.goesOn_of_arithmetic scope leaf noSum construct
      | true =>
          cases w with
          | evaluation => exact goesOn_evaluation_construct scope construct
          | linearization s => exact goesOn_linearization_construct scope s construct

end Conclusion

section Sums

variable (w) (body : Expr α) (generators : List (Generator α)) (scope : Scope α)

/-- A sum lists its scopes, computes the summands in them and adds these up. -/
theorem visit_sum : w.visit (.sum body generators) scope = (do
    let scopes ← (Generator.expand generators scope : Outcome α (List (Scope α)))
    let summands ← scopes.mapM fun inner =>
      mapError (w.visit body inner) fun e => e.withContext (body.summandText inner)
    return summands.foldl Polynomial.add .zero) := by
  simp only [← foldlM_eq_mapM]
  cases w with
  | evaluation =>
      refine Model.evaluate_eq fun m => ?_
      refine (Yields.liftM (Generator.expand generators scope)).bind fun scopes _ => ?_
      refine .foldlM (fun inner _ total => ?_) Polynomial.zero
      exact ((yields_evaluate m body inner).mapError _).bind fun summand _ => .pure _
  | linearization s =>
      rw [visit, Expr.linearize]
      rfl

variable {w body generators scope}

/-- A sum fails when its scopes cannot be listed, or else with its first summand that does. -/
theorem visit_sum_error : (w.visit (.sum body generators) scope).runOn m = (.error err, m') ↔
    Generator.expand generators scope = .error err ∧ m' = m ∨
    ∃ before inner after ps middle e, Generator.expand generators scope =
        .ok (before ++ inner :: after) ∧ InTurn (fun s => w.visit body s) before m ps middle ∧
      (w.visit body inner).runOn middle = (.error e, m') ∧
      err = e.withContext (body.summandText inner) := by
  have total {scopes : List (Scope α)} {middle : Model α} :
      ((scopes.mapM fun inner => mapError (w.visit body inner) fun e =>
          e.withContext (body.summandText inner)) >>= fun ps =>
        pure (ps.foldl Polynomial.add .zero)).runOn middle = (.error err, m') ↔
      (scopes.mapM fun inner => mapError (w.visit body inner) fun e =>
          e.withContext (body.summandText inner)).runOn middle = (.error err, m') := by
    rw [runOn_bind_error]
    exact or_iff_left fun ⟨_, _, _, done⟩ => nomatch done
  rw [visit_sum, runOn_bind_error]
  simp only [total, runOn_liftM_ok, runOn_mapM_error, inTurn_mapError, runOn_mapError_error]
  refine or_congr (by simp [eq_comm]) ⟨?_, ?_⟩
  · rintro ⟨_, _, ⟨expanded, rfl⟩, before, inner, after, ps, middle, rfl, passed, e, failed, rfl⟩
    exact ⟨before, inner, after, ps, middle, e, expanded, passed, failed, rfl⟩
  · rintro ⟨before, inner, after, ps, middle, e, expanded, passed, failed, rfl⟩
    exact ⟨_, m, ⟨expanded, rfl⟩, before, inner, after, ps, middle, rfl, passed, e, failed, rfl⟩

end Sums

omit [Naming α] in
theorem computes_eq (w : Walk α) (e : Expr α) : w.computes e = [] ∨ w.computes e = e.operands := by
  unfold computes
  split
  all_goals first | exact .inr rfl | exact ite_eq_or_eq _ _ _ | exact (ite_eq_or_eq _ _ _).symm

omit [Naming α] in
/-- What a walk computes are operands. -/
theorem mem_operands_of_mem_computes {e o : Expr α} (computed : o ∈ w.computes e) :
    o ∈ e.operands := by
  obtain none | all := w.computes_eq e
  · rw [none] at computed
    cases computed
  · rwa [all] at computed

theorem Fails.isBare {e : Expr α} (h : w.Fails e scope m trail r) : r.IsBare := by
  induction h with
  | raised noSum passed failed =>
      exact (w.visit_goesOn _ noSum).isBare (runOn_mapM_ok.mpr passed) failed
  | operand _ _ _ ih => exact ih
  | expansion failed => exact failed.isBare
  | summand _ _ _ ih => exact ih

/-- A walk fails along a failure path, and the sums on the path offer their bindings. -/
theorem Fails.raises {e : Expr α} (h : w.Fails e scope m trail r) :
    Raises m (w.visit e scope) (r.inInnermost (trail.map Stage.context)) := by
  induction h with
  | raised noSum passed failed => exact ⟨_, failed⟩
  | @operand e o scope _ _ _ _ _ _ _ split passed _ ih =>
      obtain ⟨m', stopped⟩ := ih
      have noSum : e.isSum = false := by
        have operand := mem_operands_of_mem_computes (split ▸ List.mem_append_cons_self)
        cases e <;> first | rfl | cases operand
      exact ⟨m', (w.visit_goesOn scope noSum).fails
        (runOn_mapM_error.mpr ⟨_, o, _, _, _, split, passed, stopped⟩)⟩
  | expansion failed =>
      have refused := Generator.expand_eq_error_iff.mpr ⟨_, _, failed, rfl⟩
      exact ⟨_, visit_sum_error.mpr (.inl ⟨refused, rfl⟩)⟩
  | summand expanded passed failed ih =>
      obtain ⟨m', stopped⟩ := ih
      refine ⟨m', visit_sum_error.mpr (.inr ⟨_, _, _, _, _, _, expanded, passed, stopped, ?_⟩)⟩
      rw [List.map_append]
      exact (failed.isBare.withContext_inInnermost _ _).symm

/-- Every failure of a walk has a path. -/
theorem exists_fails {e : Expr α} (failed : (w.visit e scope).runOn m = (.error err, m')) :
    ∃ trail r, w.Fails e scope m trail r ∧ err = r.inInnermost (trail.map Stage.context) := by
  induction e using Expr.partInduction generalizing scope m m' err with
  | sum body generators ih =>
      obtain ⟨refused, -⟩ | ⟨before, inner, after, ps, middle, e, expanded, passed, stopped, rfl⟩ :=
        visit_sum_error.mp failed
      · obtain ⟨stage, r, fails, rfl⟩ := Generator.expand_eq_error_iff.mp refused
        exact ⟨[stage], r, .expansion fails, rfl⟩
      · obtain ⟨trail, r, fails, rfl⟩ := ih stopped
        refine ⟨_, r, .summand expanded passed fails, ?_⟩
        rw [List.map_append]
        exact fails.isBare.withContext_inInnermost _ _
  | other e noSum ih =>
      cases operands : ((w.computes e).mapM fun o => w.visit o scope).runOn m with
      | mk outcome middle =>
          cases outcome with
          | ok ps => exact ⟨[], err, .raised noSum (runOn_mapM_ok.mp operands) failed, rfl⟩
          | error e' =>
              obtain rfl : e' = err := by
                cases ((w.visit_goesOn scope noSum).fails operands).symm.trans failed
                rfl
              obtain ⟨before, o, after, ps, middle', split, passed, stopped⟩ :=
                runOn_mapM_error.mp operands
              have operand := mem_operands_of_mem_computes (split ▸ List.mem_append_cons_self)
              obtain ⟨trail, r, fails, rfl⟩ := ih o operand stopped
              exact ⟨trail, r, .operand split passed fails, rfl⟩

/-- The errors of a walk are those raised along failure paths, each with the bindings of the
innermost stage that offers some. -/
theorem visit_raises_iff {e : Expr α} : Raises m (w.visit e scope) err ↔
    ∃ trail r, w.Fails e scope m trail r ∧ err = r.inInnermost (trail.map Stage.context) :=
  ⟨fun ⟨_, failed⟩ => exists_fails failed, fun ⟨_, _, fails, same⟩ => same ▸ fails.raises⟩

/-- The step offered to callers fails as the recursion does. -/
theorem step_raises_iff {e : Expr α} :
    Raises m (w.step e scope) err ↔ Raises m (w.visit e scope) err := by
  cases w with
  | evaluation => exact Iff.rfl
  | linearization s =>
      show Raises m (Model.linearize s e scope) err ↔ Raises m (e.linearize s scope) err
      obtain ⟨-, walked⟩ | ⟨linear, -⟩ := Model.linearize_cases s e scope
      · rw [walked]
        exact raises_atomically
      · have plain : e.Plain scope :=
          Expr.plain_of_every ((plain_of_linear linear).imp fun _ => Expr.Uses.arithmetic) scope
        have direct := Build.Yields.linearize m s plain
        have walked := Build.Yields.linearizeExpr m s plain
        rw [Build.Yields] at direct walked
        rw [raises_iff, raises_iff, direct, walked]

end Walk

/-- What errors tell about bindings. An error of an expansion, of an evaluation or of a
linearization is the error that was raised where the computation first failed, under at most one
layer of bindings, which are those of the innermost sum on the way that has any.

When the scopes of a sum have been listed and the summand in one of them is the first to fail, the
error has bindings. If no further sum is on the way to the place of failure, these are the ones of
that scope, followed by the summand: every bound symbol once, with its innermost value, the
outermost binding first. -/
theorem errors_carry_innermost_bindings (m : Model α) (e : Expr α) (scope : Scope α) :
    (∀ generators err, Generator.expand generators scope = .error err →
      err.layers ≤ 1 ∧ err.root.layers = 0 ∧
        ∃ stage, Generator.Fails generators scope stage err.root ∧
          err = err.root.inInnermost [stage.context]) ∧
    ∀ w : Walk α,
      (∀ err, Raises m (w.step e scope) err →
        err.layers ≤ 1 ∧ err.root.layers = 0 ∧
          ∃ trail, w.Fails e scope m trail err.root ∧
            err = err.root.inInnermost (trail.map Stage.context)) ∧
      ∀ body generators, e = .sum body generators →
        ∀ before inner after,
            Generator.expand generators scope = .ok (before ++ inner :: after) →
          ∀ summands middle, InTurn (fun s => w.visit body s) before m summands middle →
            ∀ err, Raises middle (w.visit body inner) err →
              ∃ context, Raises m (w.step e scope) (.inContext context err.root) ∧
                (w.Fails body inner middle [] err.root →
                  context = inner.text ++ " in " ++ body.text ∧
                  ∃ shown, inner.Shows shown ∧
                    inner.text =
                      ", ".intercalate (shown.map fun b => b.1 ++ " = " ++ toString b.2)) := by
  have bounded {err r : Error α} {contexts : List String} (bare : r.IsBare)
      (same : err = r.inInnermost contexts) : err.layers ≤ 1 ∧ err.root = r ∧ r.layers = 0 := by
    subst same
    exact ⟨bare.layers_inInnermost_le contexts, bare.root_inInnermost contexts,
      bare.layers_eq_zero⟩
  refine ⟨fun generators err refused => ?_, fun w => ⟨fun err raised => ?_, ?_⟩⟩
  · obtain ⟨stage, r, fails, same⟩ := Generator.expand_eq_error_iff.mp refused
    obtain ⟨layers, rfl, bare⟩ := bounded fails.isBare same
    exact ⟨layers, bare, stage, fails, same⟩
  · obtain ⟨trail, r, fails, same⟩ := Walk.visit_raises_iff.mp (Walk.step_raises_iff.mp raised)
    obtain ⟨layers, rfl, bare⟩ := bounded fails.isBare same
    exact ⟨layers, bare, trail, fails, same⟩
  · rintro body generators rfl before inner after expanded summands middle passed err raised
    obtain ⟨trail, r, fails, same⟩ := Walk.visit_raises_iff.mp raised
    obtain ⟨-, rfl, -⟩ := bounded fails.isBare same
    have whole := (Walk.Fails.summand expanded passed fails).raises
    obtain ⟨context, carried, last⟩ := fails.isBare.exists_context (trail.map Stage.context)
      (body.isEmpty_summandText inner)
    rw [List.map_append, List.map_singleton, Stage.context, carried] at whole
    refine ⟨context, Walk.step_raises_iff.mpr whole, fun direct => ?_⟩
    -- The same failure has a path without sums, so the error has been passed on as it was.
    have unchanged : err = err.root := raised.unique direct.raises
    exact ⟨last (same.symm.trans unchanged), _, inner.shows_visible, rfl⟩

/-- The first summand leaves a gadget in the model, and the second one divides by zero. The scope of
the second one hides the outer value of a symbol. -/
theorem hidden_value_not_told :
    let i (members : List Int) : Generator Float := .of "i" (.values members)
    let generators : List (Generator Float) := [i [5], .of "k" (.values [1]), i [2, 3]]
    let body : Expr Float := .div (.abs (.var "x" [])) (.sub (.symbol "i") (.const 3))
    let m : Model Float := .build .minimize .standard [.createVariable "x" .binary]
    Raises m (Model.linearize .standard (.sum body generators) .empty)
      (.inContext "k = 1, i = 3 in abs(x) / (i - 3)" .divisionByZero) := by
  intro i generators body m
  let w : Walk Float := .linearization .standard
  let inner (n : Int) : Scope Float := ((Scope.empty.bind "i" 5).bind "k" 1).bind "i" n
  have expanded : Generator.expand generators .empty = .ok ([inner 2] ++ inner 3 :: []) := by
    decide +kernel
  obtain ⟨p, done⟩ : ∃ p, ((w.visit body (inner 2)).runOn m).1 = .ok p :=
    exists_ok_of_isOk (by decide +kernel)
  obtain ⟨middle, left⟩ : ∃ middle, ((w.visit body (inner 2)).runOn m).2 = middle := ⟨_, rfl⟩
  have passed : InTurn (fun s => w.visit body s) [inner 2] m [p] middle :=
    .cons (Prod.ext done left) .nil
  have raised : Raises middle (w.visit body (inner 3)) .divisionByZero := by
    rw [raises_iff, ← left]
    decide +kernel
  obtain ⟨ps, last, operands⟩ : ∃ ps last,
      ((w.computes body).mapM fun o => w.visit o (inner 3)).runOn middle = (.ok ps, last) := by
    apply exists_of_isOk
    rw [← left]
    decide +kernel
  have direct : w.Fails body (inner 3) middle [] .divisionByZero := by
    obtain ⟨m', failed⟩ := raised
    exact .raised rfl (runOn_mapM_ok.mp operands) failed
  have told := ((errors_carry_innermost_bindings m (.sum body generators) .empty).2 w).2
  obtain ⟨context, carried, last⟩ :=
    told body generators rfl [inner 2] (inner 3) [] expanded [p] middle passed _ raised
  obtain ⟨rfl, -⟩ := last direct
  exact carried

end MipModel
