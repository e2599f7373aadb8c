import MipModel.Proofs.Compilation

/-!
# Plans

What an expression needs can be said before anything is done to a model. Its plan is a polynomial
and the gadgets that have to be installed for the polynomial to stand for the expression, in the
order in which the walk over the expression comes to them. It depends on the families and the scope,
but on nothing else that a model holds, so it is a reading of the expression like any other
(`plans`).

Linearization carries a plan out: it succeeds where the gadgets of a plan can be installed one after
another, its result is the polynomial of the plan, and it leaves what installing leaves
(`linearize_ok_iff`).
-/

namespace MipModel

open Model Build

def Gadget.map {ω υ α : Type} (f : ω → υ) : Gadget ω α → Gadget υ α
  | .abs x => .abs (f x)
  | .max xs => .max (xs.map f)
  | .min xs => .min (xs.map f)
  | .and xs => .and (xs.map f)
  | .or xs => .or (xs.map f)
  | .ifThenElse c t f' => .ifThenElse (f c) (f t) (f f')
  | .piecewise x shape => .piecewise (f x) shape

variable {α β γ δ : Type} [Scalar α]

/-- A result together with the gadgets that have to be installed for it, the first one first. -/
structure Planned (α β : Type) where
  result : β
  gadgets : List (Gadget (Polynomial α) α)

variable [Naming α]

/-- The reading of expressions by polynomials and the gadgets that these need, given the part of the
model that the auxiliaries belong to. -/
def plans (context : String) : Interpretation α (Planned α (Polynomial α)) where
  constant c := ⟨.constant c, []⟩
  polynomial p x := x = ⟨p, []⟩
  zero := ⟨.zero, []⟩
  add x y := ⟨x.result.add y.result, x.gadgets ++ y.gadgets⟩
  sub x y := ⟨x.result.subtract y.result, x.gadgets ++ y.gadgets⟩
  mul x y := ⟨x.result.multiply y.result, x.gadgets ++ y.gadgets⟩
  neg x := ⟨x.result.negate, x.gadgets⟩
  div x y z := ∃ q, x.result.divide y.result = .ok q ∧ z = ⟨q, x.gadgets ++ y.gadgets⟩
  construct g x := (g.map Planned.result).WellShaped ∧
    x = ⟨.var ((g.map Planned.result).nameIn context),
      g.operands.flatMap Planned.gadgets ++ [g.map Planned.result]⟩

def Model.installAll (s : Settings α) (gs : List (Gadget (Polynomial α) α)) : Build α Unit :=
  gs.forM fun g => do let _ ← install s g

section Installing

variable {s : Settings α} {m m' : Model α} {gs gs' : List (Gadget (Polynomial α) α)}

@[simp] theorem runOn_installAll_nil : (installAll s []).runOn m = (.ok (), m') ↔ m' = m := by
  rw [installAll, List.forM_eq_forM, List.forM_nil, runOn_pure_ok]
  simp

@[simp] theorem runOn_installAll_cons {g : Gadget (Polynomial α) α} :
    (installAll s (g :: gs)).runOn m = (.ok (), m') ↔ ∃ p middle,
      (install s g).runOn m = (.ok p, middle) ∧ (installAll s gs).runOn middle = (.ok (), m') := by
  simp [installAll]

@[simp] theorem runOn_installAll_append :
    (installAll s (gs ++ gs')).runOn m = (.ok (), m') ↔ ∃ middle,
      (installAll s gs).runOn m = (.ok (), middle) ∧
        (installAll s gs').runOn middle = (.ok (), m') := by
  simp only [installAll, List.forM_eq_forM, List.forM_append, runOn_bind_ok]
  constructor
  · rintro ⟨_, installed⟩
    exact installed
  · intro installed
    exact ⟨(), installed⟩

theorem keeps_installAll (shaped : ∀ g ∈ gs, g.WellShaped) :
    Keeps (Consistently Grows) (installAll s gs) :=
  Keeps.forM fun g member => (keeps_install s (shaped g member)).bind fun _ => .pure _

/-- Once gadgets are installed, the memo records them all. -/
theorem recorded_of_installAll (consistent : m.Consistent) (shaped : ∀ g ∈ gs, g.WellShaped)
    (done : (installAll s gs).runOn m = (.ok (), m')) :
    ∀ g ∈ gs, m'.Recorded s.context g (.var (g.nameIn s.context)) := by
  induction gs generalizing m with
  | nil => exact fun _ none => absurd none List.not_mem_nil
  | cons g gs ih =>
      obtain ⟨p, middle, first, rest⟩ := runOn_installAll_cons.mp done
      obtain ⟨shapedFirst, shapedRest⟩ := List.forall_mem_cons.mp shaped
      obtain ⟨consistent', -⟩ := (keeps_install s shapedFirst).of_run first consistent
      obtain ⟨-, later⟩ := (keeps_installAll shapedRest).of_run rest consistent'
      have recorded := (install_ok consistent shapedFirst first).1
      obtain rfl := recorded.2.1
      exact List.forall_mem_cons.mpr ⟨recorded.mono later.toExtends, ih consistent' shapedRest rest⟩

/-- Where gadgets are recorded, installing them changes nothing. -/
theorem runOn_installAll_of_recorded
    (recorded : ∀ g ∈ gs, ∃ p, m.memo.find? (g.nameIn s.context) = some p) :
    (installAll s gs).runOn m = (.ok (), m) := by
  induction gs with
  | nil => rfl
  | cons g gs ih =>
      obtain ⟨⟨p, found⟩, rest⟩ := List.forall_mem_cons.mp recorded
      exact runOn_installAll_cons.mpr ⟨p, m, runOn_install_of_recorded found, ih rest⟩

end Installing

/-- A step carries out plans when, from a consistent model with certain families, its successes are
the installations of what some plan asks for, and its result is the one of the plan. -/
structure CarriesOut (s : Settings α) (families : Families α) (step : Build α β)
    (P : Planned α β → Prop) : Prop where
  shaped {x : Planned α β} : P x → ∀ g ∈ x.gadgets, g.WellShaped
  run {m m' : Model α} {b : β} : Ready families m → (step.runOn m = (.ok b, m') ↔
    ∃ gs, P ⟨b, gs⟩ ∧ (installAll s gs).runOn m = (.ok (), m'))

namespace CarriesOut

variable {s : Settings α} {families : Families α}

theorem congr {step : Build α β} {P Q : Planned α β → Prop} (h : CarriesOut s families step P)
    (same : ∀ x, P x ↔ Q x) : CarriesOut s families step Q := by
  obtain rfl : P = Q := funext fun x => propext (same x)
  exact h

/-- What does not touch the model asks for nothing. -/
theorem of_unchanged {step : Build α β} {P : β → Prop}
    (run : ∀ {m m' b}, Ready families m → (step.runOn m = (.ok b, m') ↔ P b ∧ m' = m)) :
    CarriesOut s families step fun x => P x.result ∧ x.gadgets = [] where
  shaped h g member := by
    rw [h.2] at member
    cases member
  run ready := by
    rw [run ready]
    simp [and_assoc]

theorem liftM (o : Outcome α β) :
    CarriesOut s families (MonadLiftT.monadLift o : Build α β)
      fun x => o = .ok x.result ∧ x.gadgets = [] :=
  of_unchanged (P := fun b => o = .ok b) fun _ => runOn_liftM_ok

theorem pure (b : β) : CarriesOut s families (Pure.pure b) (· = ⟨b, []⟩) :=
  (of_unchanged (P := (· = b)) fun _ => runOn_pure_ok).congr fun ⟨_, _⟩ => by simp

theorem throw (e : Error α) :
    CarriesOut s families (MonadExcept.throw e : Build α β) fun _ => False :=
  (of_unchanged (P := fun _ => False) fun _ => by
    simp).congr fun _ => by simp

/-- One part after another asks for what they ask for, in turn. The second part only has to be
looked at with results of plans of the first part. -/
theorem bind {step : Build α β} {next : β → Build α γ} {P : Planned α β → Prop}
    {Q : β → Planned α γ → Prop} (first : CarriesOut s families step P)
    (second : ∀ {b gs}, P ⟨b, gs⟩ → CarriesOut s families (next b) (Q b)) :
    CarriesOut s families (step >>= next) fun z =>
      ∃ x y, P x ∧ Q x.result y ∧ z = ⟨y.result, x.gadgets ++ y.gadgets⟩ where
  shaped := by
    rintro _ ⟨x, y, hx, hy, rfl⟩ g member
    exact (List.mem_append.mp member).elim (first.shaped hx g) ((second hx).shaped hy g)
  run {m m' c} ready := by
    rw [runOn_bind_ok]
    constructor
    · rintro ⟨b, middle, done, rest⟩
      obtain ⟨gs, planned, installed⟩ := (first.run ready).mp done
      have ready' := ready.of_keeps (keeps_installAll (first.shaped planned)) installed
      obtain ⟨gs', planned', installed'⟩ := ((second planned).run ready').mp rest
      exact ⟨gs ++ gs', ⟨_, _, planned, planned', rfl⟩,
        runOn_installAll_append.mpr ⟨middle, installed, installed'⟩⟩
    · rintro ⟨_, ⟨⟨b, gs⟩, ⟨c', gs'⟩, planned, planned', same⟩, installed⟩
      obtain ⟨rfl, rfl⟩ := Planned.mk.inj same
      obtain ⟨middle, installed, installed'⟩ := runOn_installAll_append.mp installed
      have ready' := ready.of_keeps (keeps_installAll (first.shaped planned)) installed
      exact ⟨b, middle, (first.run ready).mpr ⟨gs, planned, installed⟩,
        ((second planned).run ready').mpr ⟨gs', planned', installed'⟩⟩

theorem map {step : Build α β} {P : Planned α β → Prop} (h : CarriesOut s families step P)
    (f : β → γ) : CarriesOut s families (do return f (← step)) fun z =>
      ∃ x, P x ∧ z = ⟨f x.result, x.gadgets⟩ :=
  (h.bind fun _ => .pure _).congr fun z => by simp

theorem mapError {step : Build α β} {P : Planned α β → Prop} (h : CarriesOut s families step P)
    (f : Error α → Error α) : CarriesOut s families (Build.mapError step f) P where
  shaped := h.shaped
  run ready := by simp [h.run ready]

theorem atomically {step : Build α β} {P : Planned α β → Prop}
    (h : CarriesOut s families step P) : CarriesOut s families (Build.atomically step) P where
  shaped := h.shaped
  run ready := by simp [h.run ready]

/-- The plans of several computations, one after another. -/
theorem mapM {f : γ → Build α β} {P : γ → Planned α β → Prop} {xs : List γ}
    (each : ∀ x ∈ xs, CarriesOut s families (f x) (P x)) :
    CarriesOut s families (xs.mapM f) fun z => ∃ ys, List.Forall₂ P xs ys ∧
      z = ⟨ys.map Planned.result, ys.flatMap Planned.gadgets⟩ := by
  induction xs with
  | nil =>
      refine (CarriesOut.pure []).congr fun z => ?_
      simp
  | cons x xs ih =>
      have rest := ih fun y later => each y (List.mem_cons_of_mem x later)
      rw [List.mapM_cons]
      refine ((each x List.mem_cons_self).bind fun _ => rest.map _).congr fun z => ?_
      constructor
      · rintro ⟨y, _, hy, ⟨_, ⟨ys, hys, rfl⟩, rfl⟩, rfl⟩
        exact ⟨y :: ys, .cons hy hys, by simp⟩
      · rintro ⟨_, h, rfl⟩
        obtain ⟨y, ys, hy, hys, rfl⟩ := List.forall₂_cons_left_iff.mp h
        exact ⟨y, _, hy, ⟨_, ⟨ys, hys, rfl⟩, rfl⟩, by simp⟩

/-- Two computations whose results are combined. -/
theorem both {step : Build α β} {step' : Build α γ} {P : Planned α β → Prop}
    {Q : Planned α γ → Prop} (first : CarriesOut s families step P)
    (second : CarriesOut s families step' Q) (f : β → γ → δ) :
    CarriesOut s families (do return f (← step) (← step')) fun z =>
      ∃ x y, P x ∧ Q y ∧ z = ⟨f x.result y.result, x.gadgets ++ y.gadgets⟩ := by
  refine (first.bind fun _ => second.map _).congr fun z => ?_
  constructor
  · rintro ⟨x, _, hx, ⟨y, hy, rfl⟩, rfl⟩
    exact ⟨x, y, hx, hy, rfl⟩
  · rintro ⟨x, y, hx, hy, rfl⟩
    exact ⟨x, _, hx, ⟨y, hy, rfl⟩, rfl⟩

/-- Installing a gadget asks for the gadget and results in its variable. -/
theorem install {g : Gadget (Polynomial α) α} (shaped : g.WellShaped) :
    CarriesOut s families (Model.install s g) (· = ⟨.var (g.nameIn s.context), [g]⟩) where
  shaped := by
    rintro _ rfl g' member
    rwa [List.mem_singleton.mp member]
  run {m m' p} ready := by
    constructor
    · intro done
      obtain ⟨-, rfl, -⟩ := (install_ok ready.1 shaped done).1
      exact ⟨_, rfl, runOn_installAll_cons.mpr ⟨_, _, done, runOn_installAll_nil.mpr rfl⟩⟩
    · rintro ⟨_, same, installed⟩
      obtain ⟨rfl, rfl⟩ := Planned.mk.inj same
      obtain ⟨q, middle, done, rest⟩ := runOn_installAll_cons.mp installed
      obtain rfl := runOn_installAll_nil.mp rest
      obtain ⟨-, rfl, -⟩ := (install_ok ready.1 shaped done).1
      exact done

end CarriesOut

section Walking

variable {s : Settings α} {families : Families α}

theorem foldl_add_plans {context : String} (xs : List (Planned α (Polynomial α))) :
    xs.foldl (plans context).add (plans context).zero =
      ⟨(xs.map Planned.result).foldl Polynomial.add Polynomial.zero,
        xs.flatMap Planned.gadgets⟩ := by
  have from_start (start : Planned α (Polynomial α)) : xs.foldl (plans context).add start =
      ⟨(xs.map Planned.result).foldl Polynomial.add start.result,
        start.gadgets ++ xs.flatMap Planned.gadgets⟩ := by
    induction xs generalizing start with
    | nil => simp
    | cons x xs ih =>
        rw [List.foldl_cons, ih]
        simp [plans]
  rw [from_start]
  simp [plans]

/-- Direct evaluation asks for nothing. -/
theorem carriesOut_evaluate (e : Expr α) (scope : Scope α) :
    CarriesOut s families (Model.evaluate e scope) fun x =>
      e.evaluate families scope = .ok x.result ∧ x.gadgets = [] := by
  refine .of_unchanged (P := fun p => e.evaluate families scope = .ok p) fun {m m' p} ready => ?_
  rw [show (Model.evaluate e scope).runOn m = (e.evaluate m.families scope, m) from rfl, ready.2,
    Prod.mk.injEq, eq_comm (a := m)]

theorem forall₂_polynomial_iff {context : String} {ps : List (Polynomial α)}
    {xs : List (Planned α (Polynomial α))} :
    List.Forall₂ (plans context).polynomial ps xs ↔ xs = ps.map fun p => ⟨p, []⟩ := by
  induction ps generalizing xs with
  | nil => simp
  | cons p ps ih =>
      simp only [List.forall₂_cons_left_iff, ih]
      simp [plans]

/-- The operands of a construct ask for what they ask for one after another. -/
theorem carriesOut_operandsOf (construct : Construct) {os : List (Expr α)} {scope : Scope α}
    (each : ∀ o ∈ os, CarriesOut s families (o.linearize s scope)
      (o.Denotes (plans s.context) families scope)) :
    CarriesOut s families (operandsOf construct os scope (Expr.linearizeAll s os scope)) fun z =>
      ∃ xs, OperandsDenote (plans s.context) families os scope
        (Expr.DenoteAll (plans s.context) families os scope) xs ∧
        z = ⟨xs.map Planned.result, xs.flatMap Planned.gadgets⟩ := by
  rcases os with _ | ⟨only, _ | ⟨second, rest⟩⟩
  · refine (CarriesOut.throw _).congr fun z => ?_
    simp [OperandsDenote]
  · cases pattern : only.asPattern? with
    | none =>
        simp only [operandsOf, OperandsDenote, pattern]
        refine (CarriesOut.throw _).congr fun z => ?_
        simp
    | some reference =>
        obtain ⟨family, indices⟩ := reference
        simp only [operandsOf, OperandsDenote, pattern]
        refine (CarriesOut.of_unchanged (P := fun ps =>
          families.resolveMembers family indices scope = .ok ps ∧ ps ≠ []) fun ready => ?_).congr ?_
        · rw [runOn_patternOperands_ok, ready.2]
        · rintro ⟨ps, gs⟩
          have members (ps : List (Polynomial α)) :
              let xs : List (Planned α (Polynomial α)) := ps.map fun p => ⟨p, []⟩
              xs.map Planned.result = ps ∧ xs.flatMap Planned.gadgets = [] := by
            simp [Function.comp_def]
          simp only [forall₂_polynomial_iff]
          constructor
          · rintro ⟨⟨resolved, nonempty⟩, rfl⟩
            exact ⟨_, ⟨ps, resolved, nonempty, rfl⟩, by rw [(members ps).1, (members ps).2]⟩
          · rintro ⟨_, ⟨ps', resolved, nonempty, rfl⟩, same⟩
            rw [(members ps').1, (members ps').2] at same
            obtain ⟨rfl, rfl⟩ := Planned.mk.inj same
            exact ⟨⟨resolved, nonempty⟩, rfl⟩
  · change CarriesOut s families (Expr.linearizeAll s (only :: second :: rest) scope) _
    rw [linearizeAll_eq_mapM]
    refine (CarriesOut.mapM each).congr fun z => ?_
    exact exists_congr fun xs => and_congr_left fun _ => Expr.denoteAll_iff.symm

/-- Putting together the gadget of a construct asks for what its operands ask for. -/
theorem carriesOut_assemble {e : Expr α} {scope : Scope α}
    (each : ∀ o ∈ e.operands, CarriesOut s families (o.linearize s scope)
      (o.Denotes (plans s.context) families scope)) :
    CarriesOut s families (e.assemble s scope) fun z => ∃ g,
      e.Node (plans s.context) families scope g ∧ (g.map Planned.result).WellShaped ∧
        z = ⟨g.map Planned.result, g.operands.flatMap Planned.gadgets⟩ := by
  cases e with
  | abs a =>
      refine ((each a List.mem_cons_self).map _).congr fun z => ?_
      simp [Expr.Node, Gadget.map, Gadget.WellShaped, Gadget.operands]
  | max os | min os | and os | or os =>
      have operands : ∀ o ∈ os, CarriesOut s families (o.linearize s scope)
        (o.Denotes (plans s.context) families scope) := each
      refine ((carriesOut_operandsOf _ operands).map _).congr fun z => ?_
      simp [Expr.Node, Gadget.map, Gadget.WellShaped, Gadget.operands]
  | ifThenElse c t f =>
      have hc := each c (by simp [Expr.operands])
      have ht := each t (by simp [Expr.operands])
      have hf := each f (by simp [Expr.operands])
      refine (hc.bind fun _ => ht.both hf _).congr fun z => ?_
      constructor
      · rintro ⟨x, _, hx, ⟨y, y', hy, hy', rfl⟩, rfl⟩
        exact ⟨_, ⟨x, y, y', hx, hy, hy', rfl⟩, trivial, by simp [Gadget.map, Gadget.operands]⟩
      · rintro ⟨_, ⟨x, y, y', hx, hy, hy', rfl⟩, -, rfl⟩
        exact ⟨x, _, hx, ⟨y, y', hy, hy', rfl⟩, by simp [Gadget.map, Gadget.operands]⟩
  | piecewise a shape =>
      have argument := each a List.mem_cons_self
      refine ((CarriesOut.liftM shape.check).bind fun _ => argument.map _).congr fun z => ?_
      constructor
      · rintro ⟨x, _, ⟨checked, none⟩, ⟨y, hy, rfl⟩, rfl⟩
        exact ⟨_, ⟨y, hy, rfl⟩, checked, by simp [Gadget.map, Gadget.operands, none]⟩
      · rintro ⟨_, ⟨y, hy, rfl⟩, checked, rfl⟩
        exact ⟨⟨(), []⟩, _, ⟨checked, rfl⟩, ⟨y, hy, rfl⟩, by simp [Gadget.map, Gadget.operands]⟩
  | _ =>
      refine (CarriesOut.throw _).congr fun z => ?_
      simp [Expr.Node]

theorem simulates_plans_polynomials {context : String} :
    Simulates (fun x p => x = ⟨p, []⟩) (fun _ => True) (fun _ => False) (plans (α := α) context)
      (polynomials fun _ _ => False) where
  constant _ := rfl
  polynomial _ same := ⟨_, rfl, same⟩
  zero := rfl
  add := by rintro _ _ _ _ rfl rfl; rfl
  sub := by rintro _ _ _ _ rfl rfl; rfl
  mul := by rintro _ _ _ _ rfl rfl; rfl
  neg := by rintro _ _ rfl; rfl
  div := by rintro _ _ _ _ _ rfl rfl ⟨q, quotient, rfl⟩; exact ⟨q, quotient, rfl⟩
  construct none := none.elim

theorem simulates_polynomials_plans {context : String} :
    Simulates (fun p x => x = ⟨p, []⟩) (fun _ => True) (fun _ => False)
      (polynomials fun _ _ => False) (plans (α := α) context) where
  constant _ := rfl
  polynomial _ same := ⟨_, rfl, by rw [show _ = _ from same]⟩
  zero := rfl
  add := by rintro _ _ _ _ rfl rfl; rfl
  sub := by rintro _ _ _ _ rfl rfl; rfl
  mul := by rintro _ _ _ _ rfl rfl; rfl
  neg := by rintro _ _ rfl; rfl
  div := by rintro _ _ _ _ _ rfl rfl quotient; exact ⟨_, ⟨_, quotient, rfl⟩, rfl⟩
  construct none := none.elim

/-- Expressions without constructs have direct evaluation as their only plan. -/
theorem denotes_plans_iff {e : Expr α} {scope : Scope α} {context : String}
    (plain : e.Every (Expr.Uses fun _ => False)) {x : Planned α (Polynomial α)} :
    e.Denotes (plans context) families scope x ↔
      e.evaluate families scope = .ok x.result ∧ x.gadgets = [] := by
  rw [Expr.evaluate_eq_ok_iff]
  constructor
  · intro h
    obtain ⟨p, denoted, rfl⟩ := simulates_plans_polynomials.denotes_of_any plain h
    exact ⟨denoted, rfl⟩
  · rintro ⟨denoted, none⟩
    obtain ⟨p, gs⟩ := x
    obtain rfl : gs = [] := none
    obtain ⟨y, h, rfl⟩ := simulates_polynomials_plans.denotes_of_any plain denoted
    exact h

theorem carriesOut_linearizeExpr (e : Expr α) (scope : Scope α) :
    CarriesOut s families (e.linearize s scope) (e.Denotes (plans s.context) families scope) := by
  induction e using Expr.operandInduction generalizing scope with
  | leaf e leaf =>
      have plain : e.Every (Expr.Uses fun _ => False) := by
        cases e <;> first | exact .of_arithmetic rfl | cases leaf
      have same : e.linearize s scope = Model.evaluate e scope := by
        cases e <;> first | rfl | cases leaf
      rw [same]
      exact (carriesOut_evaluate e scope).congr fun x => (denotes_plans_iff plain).symm
  | sum body generators ih =>
      rw [Expr.linearize]
      simp only [foldlM_eq_mapM]
      refine ((CarriesOut.liftM _).bind fun {scopes _} _ =>
        (CarriesOut.mapM fun inner _ => (ih inner).mapError _).map _).congr fun z => ?_
      constructor
      · rintro ⟨⟨scopes, _⟩, _, ⟨expanded, rfl⟩, ⟨_, ⟨xs, denoted, rfl⟩, rfl⟩, rfl⟩
        exact ⟨scopes, xs, expanded, denoted, (foldl_add_plans xs).symm⟩
      · rintro ⟨scopes, xs, expanded, denoted, rfl⟩
        exact ⟨⟨scopes, []⟩, _, ⟨expanded, rfl⟩, ⟨_, ⟨xs, denoted, rfl⟩, rfl⟩, foldl_add_plans xs⟩
  | add a b iha ihb | sub a b iha ihb | mul a b iha ihb =>
      rw [Expr.linearize]
      exact (iha scope).both (ihb scope) _
  | div a b iha ihb =>
      rw [Expr.linearize]
      refine ((iha scope).bind fun _ => (ihb scope).bind fun _ => .liftM _).congr fun z => ?_
      constructor
      · rintro ⟨x, _, hx, ⟨y, ⟨q, _⟩, hy, ⟨quotient, rfl⟩, rfl⟩, rfl⟩
        exact ⟨x, y, hx, hy, q, quotient, by simp⟩
      · rintro ⟨x, y, hx, hy, q, quotient, rfl⟩
        exact ⟨x, _, hx, ⟨y, ⟨q, []⟩, hy, ⟨quotient, rfl⟩, rfl⟩, by simp⟩
  | neg a ih =>
      rw [Expr.linearize]
      exact (ih scope).map _
  | construct e construct ih =>
      rw [linearize_eq_install s construct]
      have assembled := carriesOut_assemble fun o member => ih o member scope
      refine (assembled.bind fun {g gs} planned => .install ?_).congr fun z => ?_
      · obtain ⟨g', -, shaped, same⟩ := planned
        obtain ⟨rfl, -⟩ := Planned.mk.inj same
        exact shaped
      · rw [Expr.denotes_iff_node construct]
        constructor
        · rintro ⟨_, _, ⟨g, node, shaped, rfl⟩, rfl, rfl⟩
          exact ⟨g, node, shaped, rfl⟩
        · rintro ⟨g, node, shaped, rfl⟩
          exact ⟨_, _, ⟨g, node, shaped, rfl⟩, rfl, rfl⟩

omit [Naming α] in
/-- An expression without nonlinear parts has no constructs. -/
theorem plain_of_linear {e : Expr α} (linear : e.containsNonlinear = false) :
    e.Every (Expr.Uses fun _ => False) := by
  induction e using Expr.operandInduction with
  | leaf e leaf => cases e <;> first | exact .of_arithmetic rfl | cases leaf
  | sum body generators ih =>
      simp only [Expr.containsNonlinear, Bool.or_eq_false_iff] at linear
      exact ⟨.of_arithmetic rfl, ih linear.2⟩
  | add a b iha ihb | sub a b iha ihb | mul a b iha ihb | div a b iha ihb =>
      simp only [Expr.containsNonlinear, Bool.or_eq_false_iff] at linear
      exact ⟨.of_arithmetic rfl, iha linear.2.1, ihb linear.2.2⟩
  | neg a ih =>
      simp only [Expr.containsNonlinear, Bool.or_eq_false_iff] at linear
      exact ⟨.of_arithmetic rfl, ih linear.2⟩
  | construct e construct ih =>
      cases (Expr.containsNonlinear_construct construct).symm.trans linear

theorem carriesOut_linearize (e : Expr α) (scope : Scope α) :
    CarriesOut s families (Model.linearize s e scope)
      (e.Denotes (plans s.context) families scope) := by
  obtain ⟨-, walked⟩ | ⟨linear, evaluated⟩ := linearize_cases s e scope
  · rw [walked]
    exact (carriesOut_linearizeExpr e scope).atomically
  · rw [evaluated]
    exact (carriesOut_evaluate e scope).congr fun x =>
      (denotes_plans_iff (plain_of_linear linear)).symm

end Walking

/-- Linearization succeeds where the gadgets of a plan can be installed, and what they leave is what
it leaves. -/
theorem linearize_ok_iff {s : Settings α} {m m' : Model α} {e : Expr α} {scope : Scope α}
    {r : Polynomial α} (consistent : m.Consistent) :
    (Model.linearize s e scope).runOn m = (.ok r, m') ↔ ∃ gs,
      e.Denotes (plans s.context) m.families scope ⟨r, gs⟩ ∧
        (installAll s gs).runOn m = (.ok (), m') :=
  (carriesOut_linearize e scope).run ⟨consistent, rfl⟩

end MipModel
