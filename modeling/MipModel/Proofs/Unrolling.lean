import MipModel.Proofs.Atomicity
import MipModel.Proofs.Contexts
import MipModel.Proofs.FamilyCreation
import MipModel.Scalar.Binary64

/-!
# Quantified constraints

A quantified constraint stands for one constraint in each scope of its generators. To store it is to
store these one after another: it succeeds when all of them can be stored, each in the model that
the ones before have left, and what is left in the end is the same (`constrainEach_unrolled`). So
the instances share auxiliaries and counters as separate constraints do. When one of them fails, the
ones before are taken back. The error is told with the scope of the instance, unless the failure was
inside a sum that has told its own.

Each instance is all or nothing in the model that it starts from, and so are all of them together.
Hence both the one that fails and the whole leave behind what they had found.
-/

namespace MipModel

open Model Build

variable {α : Type} {m m' : Model α}

/-- To fail without a trace is to fail. -/
theorem Build.AllOrNothing.error_iff {β : Type} {step : Build α β} (h : AllOrNothing m step)
    {e : Error α} : step.runOn m = (.error e, m') ↔ Raises m step e ∧ m' = m := by
  constructor
  · intro failed
    exact ⟨⟨m', failed⟩, h e m' failed⟩
  · rintro ⟨⟨middle, failed⟩, rfl⟩
    obtain rfl := h e middle failed
    exact failed

variable [Scalar α] [Naming α]

variable {lhs rhs : Expr α} {comparison : Comparison} {generators : List (Generator α)}
  {scope : Scope α} {label : String} {scopes : List (Scope α)}

omit [Scalar α] [Naming α] in
/-- The label of an instance lists the values of all symbols. -/
theorem instanceLabel_eq {inner : Scope α}
    (bound : ∀ g ∈ generators, (inner.lookup? g.symbol).isSome = true) :
    ∃ values : List Int, values.map some = (generators.map fun g => inner.lookup? g.symbol) ∧
      instanceLabel label generators inner = "_".intercalate (label :: values.map toString) :=
  ⟨Generator.indexIn generators inner, Generator.map_some_indexIn bound, rfl⟩

omit [Naming α] in
/-- The scopes of a loop body have something to tell. -/
theorem Generator.isEmpty_text_of_expand (expanded : expand generators scope = .ok scopes)
    {inner : Scope α} (reached : inner ∈ scopes) : inner.text.isEmpty = false := by
  obtain ⟨g, loop⟩ := List.exists_mem_of_ne_nil generators (ne_nil_of_expand expanded)
  exact Scope.isEmpty_text_of_bound (bound_of_expand expanded inner reached g loop)

/-- Once its scopes are listed, a quantified constraint is an atomic loop over them. -/
theorem constrainEach_of_expand (expanded : Generator.expand generators scope = .ok scopes) :
    constrainEach lhs comparison rhs generators scope label =
      atomically (scopes.mapM fun inner =>
        mapError (constrain lhs comparison rhs inner (some (instanceLabel label generators inner)))
          fun e => e.withContext inner.text) := by
  show (liftM (Generator.expand generators scope) >>= _) = _
  rw [expanded]
  rfl

/-- A quantified constraint is stored by storing its instances in turn, all of them or none. -/
theorem constrainEach_unrolled (reachable : m.Reachable)
    (expanded : Generator.expand generators scope = .ok scopes) (lhs : Expr α)
    (comparison : Comparison) (rhs : Expr α) (label : String) :
    let each (inner : Scope α) : Build α String :=
      constrain lhs comparison rhs inner (some (instanceLabel label generators inner))
    let all : Build α (List String) := constrainEach lhs comparison rhs generators scope label
    (∀ ids m', all.runOn m = (.ok ids, m') ↔ InTurn each scopes m ids m') ∧
    (∀ e m', all.runOn m = (.error e, m') ↔ m' = m ∧
      ∃ before inner after ids middle e', scopes = before ++ inner :: after ∧
        InTurn each before m ids middle ∧ (each inner).runOn middle = (.error e', middle) ∧
        e.root = e'.root ∧ e = if e'.layers = 0 then .inContext inner.text e' else e') ∧
    ∀ inner ∈ scopes, ∃ values : List Int,
      values.map some = (generators.map fun g => inner.lookup? g.symbol) ∧
      instanceLabel label generators inner = "_".intercalate (label :: values.map toString) := by
  intro each all
  have consistent := reachable.consistent
  have steps : all = atomically (scopes.mapM fun inner =>
    mapError (each inner) fun e => e.withContext inner.text) := constrainEach_of_expand expanded
  have whole : AllOrNothing m all := allOrNothing_constrainEach consistent lhs comparison rhs _ _ _
  have single {before : List (Scope α)} {ids : List String} {middle : Model α}
      (passed : InTurn each before m ids middle) (inner : Scope α) :
      AllOrNothing middle (each inner) := by
    have kept := passed.keeps fun s _ => undoable_grows.constrain lhs comparison rhs s _
    exact allOrNothing_constrain (kept consistent).1 lhs comparison rhs inner _
  refine ⟨fun ids m' => ?_, fun e m' => ?_, fun inner reached =>
    instanceLabel_eq (Generator.bound_of_expand expanded inner reached)⟩
  · rw [steps, runOn_atomically_ok, runOn_mapM_ok, inTurn_mapError]
  · rw [whole.error_iff, and_comm]
    refine and_congr_right fun _ => ?_
    rw [steps, raises_atomically]
    constructor
    · rintro ⟨last, failed⟩
      obtain ⟨before, inner, after, ids, middle, rfl, passed, failed⟩ := runOn_mapM_error.mp failed
      obtain ⟨e', stopped, rfl⟩ := runOn_mapError_error.mp failed
      have passed := inTurn_mapError.mp passed
      obtain rfl := single passed inner e' last stopped
      have reached : inner ∈ before ++ inner :: after := List.mem_append_cons_self
      exact ⟨before, inner, after, ids, last, e', rfl, passed, stopped, e'.root_withContext _,
        e'.withContext_of_nonempty (Generator.isEmpty_text_of_expand expanded reached)⟩
    · rintro ⟨before, inner, after, ids, middle, e', rfl, passed, failed, -, same⟩
      have reached : inner ∈ before ++ inner :: after := List.mem_append_cons_self
      rw [← e'.withContext_of_nonempty (Generator.isEmpty_text_of_expand expanded reached)] at same
      exact ⟨middle, runOn_mapM_error.mpr ⟨before, inner, after, ids, middle, rfl,
        inTurn_mapError.mpr passed, runOn_mapError_error.mpr ⟨e', failed, same⟩⟩⟩

/-- In each scope a magnitude is encoded before the quotient is computed, and the third divisor is
zero. The two constraints that have been stored are taken back. -/
theorem third_instance_refused :
    let i : Generator Float := .of "i" (.values [1, 2, 3])
    let x : Expr Float := .var "x" []
    let lhs : Expr Float := .add (.abs x) (.div (.const 1) (.sub (.symbol "i") (.const 3)))
    let m : Model Float := .build .minimize .standard [.createVariable "x" .binary]
    m.Reachable ∧ (∃ scopes, Generator.expand [i] .empty = .ok scopes) ∧
      (constrainEach lhs .le (.const 5) [i] .empty "row").runOn m =
        (.error (.inContext "i = 3" .divisionByZero), m) := by
  intro i x lhs m
  have reachable : m.Reachable := Model.reachable_build _ _ _
  obtain ⟨scopes, expanded⟩ : ∃ scopes, Generator.expand [i] .empty = .ok scopes :=
    exists_ok_of_isOk (by decide +kernel)
  have failed : ((constrainEach lhs .le (.const 5) [i] .empty "row").runOn m).1 =
      .error (.inContext "i = 3" .divisionByZero) := by decide +kernel
  obtain ⟨m', left⟩ : ∃ m', ((constrainEach lhs .le (.const 5) [i] .empty "row").runOn m).2 = m' :=
    ⟨_, rfl⟩
  have unrolled := (constrainEach_unrolled reachable expanded lhs .le (.const 5) "row").2.1
  obtain ⟨unchanged, -⟩ := (unrolled _ m').mp (Prod.ext failed left)
  exact ⟨reachable, ⟨scopes, expanded⟩, Prod.ext failed (left.trans unchanged)⟩

end MipModel
