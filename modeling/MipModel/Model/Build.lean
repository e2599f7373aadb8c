import MipModel.Model.Basic

/-!
# Building steps

A building step reads and changes a model and can fail. A step that fails half-way leaves behind
what it did before, unless it runs atomically: then the registries are cut back to the sizes they
had and the counters are reset.

What a step does is said by `runOn`: its outcome, and the model after it.
-/

namespace MipModel

/-- A building step with a result. -/
abbrev Build (α β : Type) := ExceptT (Error α) (StateM (Model α)) β

namespace Build

variable {α β γ : Type}

/-- Take a step from a model; the model is returned whether or not the step fails. -/
def runOn (step : Build α β) (m : Model α) : Outcome α β × Model α :=
  StateT.run (ExceptT.run step) m

/-- A step given by what it does to every model. -/
def ofFun (f : Model α → Outcome α β × Model α) : Build α β :=
  ExceptT.mk f

/-- Take a step and undo what it appended if it fails. -/
def atomically (step : Build α β) : Build α β := ofFun fun m =>
  match step.runOn m with
  | (.ok b, m') => (.ok b, m')
  | (.error e, m') => (.error e, m'.rollback m.checkpoint)

/-- Take a step and change its error if it fails. -/
def mapError (step : Build α β) (f : Error α → Error α) : Build α β := ofFun fun m =>
  match step.runOn m with
  | (.ok b, m') => (.ok b, m')
  | (.error e, m') => (.error (f e), m')

@[simp] theorem runOn_pure (b : β) (m : Model α) : runOn (pure b) m = (.ok b, m) := rfl

/-- The second of two steps starts from the model that the first one leaves. -/
theorem runOn_bind (step : Build α β) (next : β → Build α γ) (m : Model α) :
    runOn (step >>= next) m =
      match runOn step m with
      | (.ok b, m') => runOn (next b) m'
      | (.error e, m') => (.error e, m') := by
  simp only [runOn, ExceptT.run_bind, StateT.run_bind]
  rcases StateT.run (ExceptT.run step) m with ⟨_ | _, _⟩ <;> rfl

@[simp] theorem runOn_map (f : β → γ) (step : Build α β) (m : Model α) :
    runOn (f <$> step) m =
      match runOn step m with
      | (.ok b, m') => (.ok (f b), m')
      | (.error e, m') => (.error e, m') := by
  rw [← bind_pure_comp, runOn_bind]
  rfl

@[simp] theorem runOn_throw (e : Error α) (m : Model α) :
    runOn (throw e : Build α β) m = (.error e, m) := rfl

@[simp] theorem runOn_get (m : Model α) : runOn (get : Build α (Model α)) m = (.ok m, m) := rfl

@[simp] theorem runOn_set (m m' : Model α) : runOn (set m' : Build α PUnit) m = (.ok (), m') := rfl

@[simp] theorem runOn_modify (f : Model α → Model α) (m : Model α) :
    runOn (modify f : Build α PUnit) m = (.ok (), f m) := rfl

/-- A computation that does not touch the model leaves it as it was. -/
@[simp] theorem runOn_liftM (o : Outcome α β) (m : Model α) :
    runOn (liftM o : Build α β) m = (o, m) := rfl

@[simp] theorem runOn_ofFun (f : Model α → Outcome α β × Model α) (m : Model α) :
    runOn (ofFun f) m = f m := rfl

/-- An atomic step that fails leaves a model cut back to its earlier sizes. -/
theorem runOn_atomically (step : Build α β) (m : Model α) :
    runOn (atomically step) m =
      match runOn step m with
      | (.ok b, m') => (.ok b, m')
      | (.error e, m') => (.error e, m'.rollback m.checkpoint) := rfl

theorem runOn_mapError (step : Build α β) (f : Error α → Error α) (m : Model α) :
    runOn (mapError step f) m =
      match runOn step m with
      | (.ok b, m') => (.ok b, m')
      | (.error e, m') => (.error (f e), m') := rfl

end Build

/-- The result of a step and the model after it; the model given is left as it was. -/
def Model.after {α β : Type} (m : Model α) (step : Build α β) : Outcome α (β × Model α) :=
  match step.runOn m with
  | (.ok b, m') => .ok (b, m')
  | (.error e, _) => .error e

end MipModel
