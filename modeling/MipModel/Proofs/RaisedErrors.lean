import MipModel.Proofs.Building
import MipModel.Proofs.Subexpressions
import MipModel.Model.Linearization

/-!
# Errors as they are raised

Which errors arise where nothing is computed below a sum: in what an expression takes from its
scope, in references, and in the steps that refuse a construct or install its gadget. None of them
carries bindings; these are attached where a sum or a loop passes an error on.
-/

namespace MipModel

open Build

variable {α : Type}

namespace Error

/-- The error is about what an expression takes from its scope: symbols, parameters, indices, and
numbers made of them. -/
def AboutScope : Error α → Prop
  | unboundSymbol _ | unknownParameter _ | invalidGenerator _ | nonIntegralIndex _
  | divisionByZero => True
  | _ => False

/-- The error is about a reference: about its family, its index, or what the index is taken from. -/
def AboutReference : Error α → Prop
  | undefinedFamily _ | indexNotFound .. | arityMismatch .. => True
  | e => e.AboutScope

def IsBare : Error α → Prop
  | inContext .. => False
  | _ => True

theorem IsBare.layers_eq_zero {e : Error α} (h : e.IsBare) : e.layers = 0 := by
  cases e <;> trivial

theorem AboutScope.aboutReference {e : Error α} (h : e.AboutScope) : e.AboutReference := by
  cases e <;> trivial

theorem AboutReference.isBare {e : Error α} (h : e.AboutReference) : e.IsBare := by
  cases e <;> trivial

end Error

section Scopes

variable [Scalar α] {scope : Scope α}

theorem failsWith_number (name : String) : FailsWith Error.AboutScope (scope.number name) := by
  unfold Scope.number
  split
  · exact .ok _
  · split
    · exact .ok _
    · exact .error trivial

omit [Scalar α] in
theorem failsWith_parameter (name : String) (pattern : Pattern) :
    FailsWith Error.AboutScope (scope.parameter name pattern) := by
  unfold Scope.parameter
  split
  · unfold Data.param Data.tableEntry
    split
    · exact .ok _
    · split
      · exact .error trivial
      · split
        · exact .ok _
        · exact .error trivial
  · exact .error trivial

mutual

theorem failsWith_resolve : ∀ i : IndexExpr α, FailsWith Error.AboutScope (i.resolve scope)
  | .literal n => .ok _
  | .wildcard => .ok _
  | .symbol name => by
      unfold IndexExpr.resolve
      split <;> exact .ok _
  | .computed e => by
      rw [IndexExpr.resolve]
      refine (failsWith_constantIn e).bind fun y => ?_
      split
      · exact .ok _
      · exact .error trivial

theorem failsWith_resolveAll :
    ∀ is : List (IndexExpr α), FailsWith Error.AboutScope (IndexExpr.resolveAll scope is)
  | [] => .ok _
  | i :: is => by
      rw [IndexExpr.resolveAll]
      exact (failsWith_resolve i).bind fun c => (failsWith_resolveAll is).bind fun cs => .ok _

theorem failsWith_constantIn : ∀ e : Expr α, FailsWith Error.AboutScope (e.constantIn scope)
  | .const c => .ok _
  | .symbol name => failsWith_number name
  | .param name indices => by
      rw [Expr.constantIn]
      exact (failsWith_resolveAll indices).bind fun pattern => failsWith_parameter name pattern
  | .poly p => by
      rw [Expr.constantIn]
      split
      · exact .ok _
      · exact .error trivial
  | .add a b | .sub a b | .mul a b => by
      rw [Expr.constantIn]
      exact (failsWith_constantIn a).bind fun y => (failsWith_constantIn b).bind fun z => .ok _
  | .div a b => by
      rw [Expr.constantIn]
      refine (failsWith_constantIn b).bind fun z => ?_
      split
      · exact .error trivial
      · exact (failsWith_constantIn a).bind fun y => .ok _
  | .neg a => by
      rw [Expr.constantIn]
      exact (failsWith_constantIn a).bind fun y => .ok _
  | .var .. | .sum .. | .abs _ | .max _ | .min _ | .and _ | .or _ | .ifThenElse ..
  | .piecewise .. => .error trivial

end

theorem failsWith_valuesIn (d : Domain α) : FailsWith Error.AboutScope (d.valuesIn scope) := by
  have bound (y : α) : FailsWith Error.AboutScope (d.rangeBound y) := by
    unfold Domain.rangeBound
    split
    · exact .error trivial
    · split
      · exact .ok _
      · exact .error trivial
  cases d with
  | values members => exact .ok members
  | named name =>
      show FailsWith Error.AboutScope (scope.data.domain name)
      unfold Data.domain
      split
      · exact .ok _
      · exact .error trivial
  | range first last =>
      unfold Domain.valuesIn
      refine (failsWith_constantIn first).bind fun y => (bound y).bind fun y' => ?_
      exact (failsWith_constantIn last).bind fun z => (bound z).bind fun z' => .ok _

end Scopes

section References

variable [Scalar α] (families : Families α)

omit [Scalar α] in
theorem Families.failsWith_lookup (name : String) :
    FailsWith Error.AboutReference (families.lookup name) := by
  unfold Families.lookup
  split
  · exact .ok _
  · exact .error trivial

theorem Families.failsWith_resolve (family : String) (indices : List (IndexExpr α))
    (scope : Scope α) : FailsWith Error.AboutReference (families.resolve family indices scope) := by
  have find (f : Family α) (index : Index) :
      FailsWith Error.AboutReference (Family.lookup.find f index) := by
    unfold Family.lookup.find
    split
    · exact .ok _
    · exact .error trivial
  refine (families.failsWith_lookup family).bind fun f => ?_
  refine ((failsWith_resolveAll indices).imp fun _ => Error.AboutScope.aboutReference).bind
    fun pattern => ?_
  split
  · exact .ok _
  · split
    · unfold Family.lookup
      split
      · split
        · exact .error trivial
        · exact find f _
      · exact find f _
    · exact .error trivial

theorem Families.failsWith_resolveMembers (family : String) (indices : List (IndexExpr α))
    (scope : Scope α) :
    FailsWith Error.AboutReference (families.resolveMembers family indices scope) := by
  refine (families.failsWith_lookup family).bind fun f => ?_
  exact ((failsWith_resolveAll indices).imp fun _ => Error.AboutScope.aboutReference).bind
    fun pattern => .ok _

/-- An expression without parts fails over a reference or over its scope. -/
theorem Expr.failsWith_leaf {e : Expr α} (leaf : e.isLeaf = true) (scope : Scope α) :
    FailsWith Error.AboutReference (e.evaluate families scope) := by
  cases e with
  | const c | poly q => exact .ok _
  | var family indices => exact families.failsWith_resolve family indices scope
  | param name indices =>
      refine FailsWith.imp ?_ fun _ => Error.AboutScope.aboutReference
      exact (failsWith_resolveAll indices).bind fun pattern =>
        (failsWith_parameter name pattern).bind fun c => .ok _
  | symbol name =>
      refine FailsWith.imp ?_ fun _ => Error.AboutScope.aboutReference
      exact (failsWith_number name).bind fun c => .ok _
  | _ => cases leaf

end References

section Steps

variable {β γ : Type}

/-- From every model, a step can only fail with errors that carry no bindings. -/
def Build.RaisesBare (step : Build α β) : Prop := ∀ m, FailsWith Error.IsBare (runOn step m).1

namespace Build.RaisesBare

theorem pure (b : β) : RaisesBare (Pure.pure b : Build α β) := fun _ => .ok b

theorem get : RaisesBare (MonadState.get : Build α (Model α)) := fun m => .ok m

theorem modify (f : Model α → Model α) : RaisesBare (modify f : Build α PUnit) := fun _ => .ok ()

theorem set (m : Model α) : RaisesBare (MonadStateOf.set m : Build α PUnit) := fun _ => .ok ()

theorem throw {e : Error α} (h : e.IsBare) : RaisesBare (MonadExcept.throw e : Build α β) :=
  fun _ => .error h

theorem liftM {o : Outcome α β} (h : FailsWith Error.IsBare o) :
    RaisesBare (MonadLiftT.monadLift o : Build α β) :=
  fun _ => h

theorem bind {step : Build α β} {next : β → Build α γ} (first : RaisesBare step)
    (second : ∀ b, RaisesBare (next b)) : RaisesBare (step >>= next) := by
  intro m
  have failure := first m
  rw [runOn_bind]
  cases run : runOn step m with
  | mk outcome middle =>
      rw [run] at failure
      cases outcome with
      | error e => exact .error (failure e rfl)
      | ok b => exact second b middle

theorem forM {f : γ → Build α PUnit} {xs : List γ} (h : ∀ x ∈ xs, RaisesBare (f x)) :
    RaisesBare (xs.forM f) := by
  induction xs with
  | nil => exact .pure ()
  | cons x xs ih =>
      rw [List.forM_eq_forM, List.forM_cons]
      exact (h x List.mem_cons_self).bind fun _ => ih fun y later =>
        h y (List.mem_cons_of_mem x later)

end Build.RaisesBare

open Model

variable [Scalar α]

theorem raisesBare_registerAs (name : String) (options : Variable.Options α) :
    RaisesBare (registerAs name options) := by
  have defined : FailsWith Error.IsBare (options.define name) := by
    unfold Variable.Options.define
    split
    · split
      · exact .error trivial
      · exact .ok _
    · exact .ok _
  have register (m : Model α) : RaisesBare (do
      let v ← options.define name
      MonadStateOf.set { m with vars := m.vars.insert name v }
      return Polynomial.var name : Build α (Polynomial α)) :=
    (RaisesBare.liftM defined).bind fun v => (RaisesBare.set _).bind fun _ => .pure _
  have taken : (.duplicateVariable name : Error α).IsBare := trivial
  refine RaisesBare.get.bind fun m => ?_
  split
  · exact (RaisesBare.throw taken).bind fun _ => register m
  · exact register m

theorem raisesBare_encode (s : Settings α) (g : Gadget (Polynomial α) α) (name : String) :
    RaisesBare (encode s g name) := by
  refine RaisesBare.get.bind fun m => ?_
  refine (RaisesBare.forM fun v _ => (raisesBare_registerAs v.1 _).bind fun _ => .pure _).bind
    fun _ => ?_
  have store (c : Constraint α) : RaisesBare (addConstraint c) :=
    RaisesBare.get.bind fun _ => (RaisesBare.set _).bind fun _ => .pure _
  refine (RaisesBare.forM fun row _ => (store _).bind fun _ => .pure _).bind fun _ => ?_
  exact (RaisesBare.modify _).bind fun _ => .pure _

theorem raisesBare_install [Naming α] (s : Settings α) (g : Gadget (Polynomial α) α) :
    RaisesBare (install s g) := by
  refine RaisesBare.get.bind fun m => ?_
  split
  · exact .pure _
  · exact raisesBare_encode s g _

/-- Finding the operands of a construct fails with errors that carry no bindings, as far as it is
not left to computing them. -/
theorem raisesBare_operandsOf (construct : Construct) {operands : List (Expr α)} {scope : Scope α}
    {compute : Build α (List (Polynomial α))} (few : operands.length < 2) :
    RaisesBare (operandsOf construct operands scope compute) := by
  cases operands with
  | nil => exact .throw trivial
  | cons only rest =>
      obtain rfl : rest = [] := List.length_eq_zero_iff.mp (by rw [List.length_cons] at few; omega)
      unfold operandsOf
      dsimp only
      split
      · refine RaisesBare.get.bind fun m => ?_
        refine (RaisesBare.liftM ((m.families.failsWith_resolveMembers _ _ scope).imp
          fun _ => Error.AboutReference.isBare)).bind fun members => ?_
        split
        · refine (RaisesBare.liftM ((failsWith_resolveAll _).imp
            fun _ h => h.aboutReference.isBare)).bind fun pattern => ?_
          exact RaisesBare.bind (.throw (by trivial)) fun _ => .pure _
        · exact .pure _
      · exact .throw trivial

theorem Piecewise.failsWith_check (shape : Piecewise α) :
    FailsWith Error.IsBare shape.check := by
  unfold Piecewise.check
  dsimp only
  repeat' split
  all_goals first | exact .ok _ | exact .error trivial

theorem Polynomial.failsWith_divide (p divisor : Polynomial α) :
    FailsWith Error.IsBare (p.divide divisor) := by
  unfold Polynomial.divide
  split
  · exact .error trivial
  · split
    · exact .error trivial
    · exact .ok _

end Steps
end MipModel
