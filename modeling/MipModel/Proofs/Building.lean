import MipModel.Proofs.RelatedLists
import MipModel.Model.Build

/-!
# Rules for building steps

Two views of a step are used throughout. `Keeps` relates the model before a step to the model after
it whatever the outcome, so it also speaks about the models that a failure leaves behind. A
successful step is taken apart by `runOn_bind_ok`, which names the intermediate result and the
intermediate model.

Loops that fold a result together are loops that collect results first (`foldlM_eq_mapM`), so both
views need a rule for collecting loops only. What such a loop does is said without it by steps that
are taken in turn (`InTurn`): it succeeds when all of them do, and fails with the first that does
not.
-/

namespace MipModel.Build

variable {α β γ δ : Type}

/-- Folding while running is running first and folding afterwards. -/
theorem foldlM_eq_mapM {M : Type → Type} [Monad M] [LawfulMonad M] (f : γ → M β) (g : δ → β → δ)
    (xs : List γ) (init : δ) :
    xs.foldlM (fun total x => do let b ← f x; return g total b) init =
      (do let bs ← xs.mapM f; return bs.foldl g init) := by
  induction xs generalizing init with
  | nil => simp
  | cons x xs ih =>
      simp only [List.foldlM_cons, List.mapM_cons, bind_assoc, pure_bind, ih, List.foldl_cons]

/-- A loop from another start, when every step is the same step seen from there. -/
theorem foldlM_hom {ε : Type} {f : δ → ε} {step : δ → γ → Outcome α δ} {step' : ε → γ → Outcome α ε}
    (each : ∀ d x, step' (f d) x = (step d x).map f) (xs : List γ) (init : δ) :
    xs.foldlM step' (f init) = (xs.foldlM step init).map f := by
  induction xs generalizing init with
  | nil => rfl
  | cons x xs ih =>
      rw [List.foldlM_cons, List.foldlM_cons, each]
      cases step init x with
      | error e => rfl
      | ok d => exact ih d

@[simp] theorem bind_eq_ok_iff {o : Outcome α β} {next : β → Outcome α γ} {c : γ} :
    o >>= next = .ok c ↔ ∃ b, o = .ok b ∧ next b = .ok c := by
  cases o with
  | error e => exact iff_of_false (fun h => (nomatch h)) fun ⟨_, h, _⟩ => (nomatch h)
  | ok b => exact ⟨fun h => ⟨b, rfl, h⟩, fun ⟨_, same, h⟩ => Except.ok.inj same ▸ h⟩

@[simp] theorem bind_eq_error_iff {o : Outcome α β} {next : β → Outcome α γ} {e : Error α} :
    o >>= next = .error e ↔ o = .error e ∨ ∃ b, o = .ok b ∧ next b = .error e := by
  cases o with
  | error e' =>
      refine ⟨fun h => .inl (congrArg Except.error (Except.error.inj h)), ?_⟩
      rintro (h | ⟨_, none, -⟩)
      · exact congrArg Except.error (Except.error.inj h)
      · cases none
  | ok b =>
      refine ⟨fun h => .inr ⟨b, rfl, h⟩, ?_⟩
      rintro (h | ⟨_, same, h⟩)
      · cases h
      · exact Except.ok.inj same ▸ h

/-- An outcome is an error when it is no result. -/
theorem exists_error_iff {o : Outcome α β} : (∃ e, o = .error e) ↔ ¬∃ b, o = .ok b := by
  cases o <;> simp

theorem exists_ok_of_isOk {o : Outcome α β} (h : o.isOk = true) : ∃ b, o = .ok b := by
  cases o with
  | error e => cases h
  | ok b => exact ⟨b, rfl⟩

@[simp] theorem mapError_eq_ok_iff {o : Outcome α β} {f : Error α → Error α} {b : β} :
    o.mapError f = .ok b ↔ o = .ok b := by
  cases o with
  | error e => exact iff_of_false (fun h => (nomatch h)) fun h => (nomatch h)
  | ok b => rfl

@[simp] theorem pure_eq_ok_iff {b c : β} : (pure c : Outcome α β) = .ok b ↔ b = c :=
  ⟨fun h => (Except.ok.inj h).symm, fun h => h ▸ rfl⟩

/-- A loop of computations succeeds when every one of them does. -/
theorem mapM_eq_ok_iff {f : γ → Outcome α β} {xs : List γ} {bs : List β} :
    xs.mapM f = .ok bs ↔ List.Forall₂ (fun x b => f x = .ok b) xs bs := by
  induction xs generalizing bs with
  | nil => exact ⟨fun h => Except.ok.inj h ▸ .nil, fun | .nil => rfl⟩
  | cons x xs ih =>
      simp only [List.mapM_cons, bind_eq_ok_iff, pure_eq_ok_iff, ih, List.forall₂_cons_left_iff,
        exists_and_left]

/-- A loop of computations has a result when every one of them has. -/
theorem exists_mapM_iff {f : γ → Outcome α β} {xs : List γ} :
    (∃ bs, xs.mapM f = .ok bs) ↔ ∀ x ∈ xs, ∃ b, f x = .ok b := by
  induction xs with
  | nil => exact iff_of_true ⟨[], rfl⟩ fun x none => absurd none List.not_mem_nil
  | cons x xs ih =>
      rw [List.forall_mem_cons, ← ih]
      simp only [List.mapM_cons, bind_eq_ok_iff, pure_eq_ok_iff]
      constructor
      · rintro ⟨_, b, first, bs, rest, rfl⟩
        exact ⟨⟨b, first⟩, bs, rest⟩
      · rintro ⟨⟨b, first⟩, bs, rest⟩
        exact ⟨b :: bs, b, first, bs, rest, rfl⟩

/-- A loop of checks succeeds when every check does. -/
@[simp] theorem forM_ok {f : γ → Outcome α Unit} {xs : List γ} :
    xs.forM f = .ok () ↔ ∀ x ∈ xs, f x = .ok () := by
  induction xs with
  | nil => exact ⟨fun _ _ none => absurd none List.not_mem_nil, fun _ => rfl⟩
  | cons x xs ih =>
      rw [List.forall_mem_cons, ← ih]
      show (f x >>= fun _ => xs.forM f) = _ ↔ _
      cases f x with
      | error e => exact ⟨fun h => (nomatch h), fun h => (nomatch h.1)⟩
      | ok u => exact ⟨fun h => ⟨rfl, h⟩, fun h => h.2⟩

/-- A loop of checks fails at the first check that does, with its error. -/
theorem forM_error {f : γ → Outcome α Unit} {xs : List γ} {e : Error α} :
    xs.forM f = .error e ↔ ∃ before x after, xs = before ++ x :: after ∧
      (∀ y ∈ before, f y = .ok ()) ∧ f x = .error e := by
  induction xs with
  | nil =>
      refine ⟨fun h => (nomatch h), ?_⟩
      rintro ⟨before, x, after, split, -⟩
      cases before <;> cases split
  | cons x xs ih =>
      show (f x >>= fun _ => xs.forM f) = _ ↔ _
      rw [bind_eq_error_iff, ih]
      constructor
      · rintro (here | ⟨⟨⟩, passed, before, y, after, rfl, earlier, later⟩)
        · exact ⟨[], x, xs, rfl, fun y none => absurd none List.not_mem_nil, here⟩
        · exact ⟨x :: before, y, after, rfl, List.forall_mem_cons.mpr ⟨passed, earlier⟩, later⟩
      · rintro ⟨before, y, after, split, earlier, failed⟩
        obtain ⟨rfl, same⟩ | ⟨front, rfl, rfl⟩ := List.cons_eq_append_iff.mp split
        · cases same
          exact .inl failed
        · obtain ⟨passed, earlier⟩ := List.forall_mem_cons.mp earlier
          exact .inr ⟨(), passed, front, y, after, rfl, earlier, failed⟩

/-- A loop of computations fails at the first one that does, with its error. -/
theorem mapM_eq_error_iff {f : γ → Outcome α β} {xs : List γ} {e : Error α} :
    xs.mapM f = .error e ↔ ∃ before x after, xs = before ++ x :: after ∧
      (∀ y ∈ before, ∃ b, f y = .ok b) ∧ f x = .error e := by
  induction xs with
  | nil =>
      refine ⟨fun h => (nomatch h), ?_⟩
      rintro ⟨before, x, after, split, -⟩
      cases before <;> cases split
  | cons x xs ih =>
      have rest (b : β) : (xs.mapM f >>= fun bs => pure (b :: bs)) = .error e ↔
          xs.mapM f = .error e := by
        cases xs.mapM f <;> simp [bind, Except.bind, pure, Except.pure]
      simp only [List.mapM_cons, bind_eq_error_iff, rest, ih]
      constructor
      · rintro (here | ⟨b, passed, before, y, after, rfl, earlier, later⟩)
        · exact ⟨[], x, xs, rfl, fun y none => absurd none List.not_mem_nil, here⟩
        · exact ⟨x :: before, y, after, rfl, List.forall_mem_cons.mpr ⟨⟨b, passed⟩, earlier⟩, later⟩
      · rintro ⟨before, y, after, split, earlier, failed⟩
        obtain ⟨rfl, same⟩ | ⟨front, rfl, rfl⟩ := List.cons_eq_append_iff.mp split
        · cases same
          exact .inl failed
        · obtain ⟨⟨b, passed⟩, earlier⟩ := List.forall_mem_cons.mp earlier
          exact .inr ⟨b, passed, front, y, after, rfl, earlier, failed⟩

/-- A fold of computations fails where it first does, with the error of that place. -/
theorem foldlM_eq_error_iff {f : δ → γ → Outcome α δ} {xs : List γ} {init : δ} {e : Error α} :
    xs.foldlM f init = .error e ↔ ∃ before x after d, xs = before ++ x :: after ∧
      before.foldlM f init = .ok d ∧ f d x = .error e := by
  induction xs generalizing init with
  | nil =>
      refine ⟨fun h => (nomatch h), ?_⟩
      rintro ⟨before, x, after, d, split, -⟩
      cases before <;> cases split
  | cons x xs ih =>
      simp only [List.foldlM_cons, bind_eq_error_iff, ih]
      constructor
      · rintro (here | ⟨d, passed, before, y, after, d', rfl, earlier, later⟩)
        · exact ⟨[], x, xs, init, rfl, rfl, here⟩
        · refine ⟨x :: before, y, after, d', rfl, ?_, later⟩
          rw [List.foldlM_cons, passed]
          exact earlier
      · rintro ⟨before, y, after, d', split, earlier, failed⟩
        obtain ⟨rfl, same⟩ | ⟨front, rfl, rfl⟩ := List.cons_eq_append_iff.mp split
        · cases same
          cases earlier
          exact .inl failed
        · rw [List.foldlM_cons] at earlier
          obtain ⟨d, passed, earlier⟩ := bind_eq_ok_iff.mp earlier
          exact .inr ⟨d, passed, front, y, after, d', rfl, earlier, failed⟩

section Errors

/-- Every error of a computation satisfies a property. -/
def FailsWith (E : Error α → Prop) (o : Outcome α β) : Prop := ∀ e, o = .error e → E e

namespace FailsWith

variable {E : Error α → Prop}

theorem imp {F : Error α → Prop} {o : Outcome α β} (h : FailsWith E o)
    (weaker : ∀ e, E e → F e) : FailsWith F o :=
  fun e failed => weaker e (h e failed)

theorem of_ok {o : Outcome α β} {b : β} (h : o = .ok b) : FailsWith E o := by
  rw [h]
  exact nofun

theorem ok (b : β) : FailsWith E (.ok b : Outcome α β) := .of_ok rfl

theorem error {e : Error α} (h : E e) : FailsWith E (.error e : Outcome α β) := by
  rintro _ same
  cases same
  exact h

/-- The second part only has to be looked at where the first part has succeeded. -/
theorem bind_of_ok {o : Outcome α β} {next : β → Outcome α γ} (first : FailsWith E o)
    (second : ∀ b, o = .ok b → FailsWith E (next b)) : FailsWith E (o >>= next) := by
  cases o with
  | error e => exact fun e' h => first e' (by cases h; rfl)
  | ok b => exact second b rfl

theorem bind {o : Outcome α β} {next : β → Outcome α γ} (first : FailsWith E o)
    (second : ∀ b, FailsWith E (next b)) : FailsWith E (o >>= next) :=
  first.bind_of_ok fun b _ => second b

theorem foldlM {f : δ → γ → Outcome α δ} {xs : List γ} (h : ∀ d, ∀ x ∈ xs, FailsWith E (f d x))
    (init : δ) : FailsWith E (xs.foldlM f init) := by
  induction xs generalizing init with
  | nil => exact .ok init
  | cons x xs ih =>
      rw [List.foldlM_cons]
      exact (h init x List.mem_cons_self).bind fun d => ih (fun d y later =>
        h d y (List.mem_cons_of_mem x later)) d

theorem mapM {f : γ → Outcome α β} {xs : List γ} (h : ∀ x ∈ xs, FailsWith E (f x)) :
    FailsWith E (xs.mapM f) := by
  induction xs with
  | nil => exact .ok []
  | cons x xs ih =>
      rw [List.mapM_cons]
      exact (h x List.mem_cons_self).bind fun b =>
        (ih fun y later => h y (List.mem_cons_of_mem x later)).bind fun bs => .ok (b :: bs)

end FailsWith
end Errors

/-- Checks leave the model as it was. -/
@[simp] theorem runOn_forM_liftM (f : γ → Outcome α Unit) (xs : List γ) (m : Model α) :
    (xs.forM fun x => (liftM (f x) : Build α Unit)).runOn m = (xs.forM f, m) := by
  induction xs with
  | nil => rfl
  | cons x xs ih =>
      show runOn (liftM (f x) >>= fun _ => xs.forM fun x => liftM (f x)) m =
        (f x >>= fun _ => xs.forM f, m)
      rw [runOn_bind, runOn_liftM]
      cases f x with
      | error e => rfl
      | ok u => exact ih

section Success

variable {m m' : Model α}

/-- A step that is seen to succeed has a result and leaves a model behind. -/
theorem exists_of_isOk {step : Build α β} (h : (runOn step m).1.isOk = true) :
    ∃ b m', runOn step m = (.ok b, m') := by
  obtain ⟨b, done⟩ := exists_ok_of_isOk h
  exact ⟨b, _, Prod.ext done rfl⟩

/-- A sequence succeeds when its first part does and the second part does from there. -/
@[simp] theorem runOn_bind_ok {step : Build α β} {next : β → Build α γ} {c : γ} :
    runOn (step >>= next) m = (.ok c, m') ↔
      ∃ b middle, runOn step m = (.ok b, middle) ∧ runOn (next b) middle = (.ok c, m') := by
  rw [runOn_bind]
  rcases runOn step m with ⟨e | b, middle⟩
  · simp
  · simp

/-- A sequence fails in its first part, or in its second part after the first one has succeeded. -/
@[simp] theorem runOn_bind_error {step : Build α β} {next : β → Build α γ} {e : Error α} :
    runOn (step >>= next) m = (.error e, m') ↔ runOn step m = (.error e, m') ∨
      ∃ b middle, runOn step m = (.ok b, middle) ∧ runOn (next b) middle = (.error e, m') := by
  rw [runOn_bind]
  rcases runOn step m with ⟨e' | b, middle⟩
  · simp
  · simp

theorem runOn_pure_ok {b c : β} :
    runOn (pure b : Build α β) m = (.ok c, m') ↔ c = b ∧ m' = m := by
  simp [eq_comm]

theorem runOn_liftM_ok {o : Outcome α β} {b : β} :
    runOn (liftM o : Build α β) m = (.ok b, m') ↔ o = .ok b ∧ m' = m := by
  simp [eq_comm]

theorem runOn_get_ok {b : Model α} :
    runOn (get : Build α (Model α)) m = (.ok b, m') ↔ b = m ∧ m' = m := by
  simp [eq_comm]

/-- A change of errors does not matter to a success. -/
@[simp] theorem runOn_mapError_ok {step : Build α β} {f : Error α → Error α} {b : β} :
    runOn (mapError step f) m = (.ok b, m') ↔ runOn step m = (.ok b, m') := by
  rw [runOn_mapError]
  rcases runOn step m with ⟨e | b, middle⟩
  · simp
  · simp

/-- A failure is the changed one. -/
@[simp] theorem runOn_mapError_error {step : Build α β} {f : Error α → Error α} {e : Error α} :
    runOn (mapError step f) m = (.error e, m') ↔
      ∃ e', runOn step m = (.error e', m') ∧ e = f e' := by
  rw [runOn_mapError]
  rcases runOn step m with ⟨e' | b, middle⟩
  · simp [eq_comm, and_comm]
  · simp

/-- An atomic success is a success. -/
@[simp] theorem runOn_atomically_ok {step : Build α β} {b : β} :
    runOn (atomically step) m = (.ok b, m') ↔ runOn step m = (.ok b, m') := by
  rw [runOn_atomically]
  rcases runOn step m with ⟨e | b, middle⟩
  · simp
  · simp

/-- What a collecting loop achieves. Every iteration moves along `R`, which `Q` is stable under,
so what an early iteration has achieved still holds at the end. -/
theorem mapM_ok {P : Model α → Prop} {R : Model α → Model α → Prop} [IsPreorder (Model α) R]
    {Q : Model α → γ → β → Prop} {f : γ → Build α β} {xs : List γ} {bs : List β}
    (keep : ∀ {m m'}, R m m' → P m → P m')
    (stable : ∀ {m m' x b}, P m → R m m' → Q m x b → Q m' x b)
    (iteration : ∀ x ∈ xs, ∀ {m m' b}, P m → runOn (f x) m = (.ok b, m') → R m m' ∧ Q m' x b)
    (start : P m) (h : runOn (xs.mapM f) m = (.ok bs, m')) :
    R m m' ∧ List.Forall₂ (Q m') xs bs := by
  induction xs generalizing m bs with
  | nil =>
      rw [List.mapM_nil, runOn_pure_ok] at h
      obtain ⟨rfl, rfl⟩ := h
      exact ⟨refl _, .nil⟩
  | cons x xs ih =>
      rw [List.mapM_cons, runOn_bind_ok] at h
      obtain ⟨b, middle, first, rest⟩ := h
      rw [runOn_bind_ok] at rest
      obtain ⟨bs', last, rest, done⟩ := rest
      rw [runOn_pure_ok] at done
      obtain ⟨rfl, rfl⟩ := done
      obtain ⟨moved, achieved⟩ := iteration x List.mem_cons_self start first
      obtain ⟨movedRest, achievedRest⟩ :=
        ih (fun y hy => iteration y (List.mem_cons_of_mem x hy)) (keep moved start) rest
      exact ⟨trans_of R moved movedRest,
        .cons (stable (keep moved start) movedRest achieved) achievedRest⟩

end Success

section Failures

variable {m : Model α} {step : Build α β} {e e' : Error α}

/-- From a model, a step fails with an error, whatever it leaves behind. -/
def Raises (m : Model α) (step : Build α β) (e : Error α) : Prop :=
  ∃ m', step.runOn m = (.error e, m')

theorem raises_iff : Raises m step e ↔ (step.runOn m).1 = .error e :=
  ⟨fun ⟨_, failed⟩ => congrArg Prod.fst failed, fun failed => ⟨_, Prod.ext failed rfl⟩⟩

theorem Raises.unique (h : Raises m step e) (h' : Raises m step e') : e = e' :=
  Except.error.inj ((raises_iff.mp h).symm.trans (raises_iff.mp h'))

/-- To undo what a step did does not change its error. -/
@[simp] theorem raises_atomically : Raises m (atomically step) e ↔ Raises m step e := by
  rw [raises_iff, raises_iff, runOn_atomically]
  rcases runOn step m with ⟨e' | b, middle⟩ <;> rfl

end Failures

section Turns

/-- Steps taken in turn, each of them from the model that the one before leaves: they all succeed,
with these results, and lead to this model. -/
inductive InTurn (step : γ → Build α β) : List γ → Model α → List β → Model α → Prop where
  | nil {m : Model α} : InTurn step [] m [] m
  | cons {x : γ} {xs : List γ} {m middle m' : Model α} {b : β} {bs : List β} :
      runOn (step x) m = (.ok b, middle) → InTurn step xs middle bs m' →
      InTurn step (x :: xs) m (b :: bs) m'

variable {step : γ → Build α β} {xs : List γ} {m m' : Model α}

/-- A collecting loop succeeds when its steps do in turn. -/
theorem runOn_mapM_ok {bs : List β} :
    runOn (xs.mapM step) m = (.ok bs, m') ↔ InTurn step xs m bs m' := by
  induction xs generalizing m bs with
  | nil =>
      rw [List.mapM_nil, runOn_pure_ok]
      constructor
      · rintro ⟨rfl, rfl⟩
        exact .nil
      · rintro ⟨⟩
        exact ⟨rfl, rfl⟩
  | cons x xs ih =>
      simp only [List.mapM_cons, runOn_bind_ok, runOn_pure_ok]
      constructor
      · rintro ⟨b, middle, first, bs, last, rest, rfl, rfl⟩
        exact .cons first (ih.mp rest)
      · rintro ⟨⟩
        rename_i middle b bs first rest
        exact ⟨b, middle, first, bs, m', ih.mpr rest, rfl, rfl⟩

/-- A collecting loop fails with the first of its steps that does. -/
theorem runOn_mapM_error {e : Error α} :
    runOn (xs.mapM step) m = (.error e, m') ↔ ∃ before x after bs middle,
      xs = before ++ x :: after ∧ InTurn step before m bs middle ∧
        runOn (step x) middle = (.error e, m') := by
  induction xs generalizing m with
  | nil =>
      refine ⟨fun h => (nomatch h), ?_⟩
      rintro ⟨before, x, after, bs, middle, split, -⟩
      cases before <;> cases split
  | cons x xs ih =>
      have rest (b : β) (middle : Model α) :
          runOn (xs.mapM step >>= fun bs => pure (b :: bs)) middle = (.error e, m') ↔
            runOn (xs.mapM step) middle = (.error e, m') := by
        rw [runOn_bind_error]
        exact or_iff_left fun ⟨_, _, _, done⟩ => nomatch done
      simp only [List.mapM_cons, runOn_bind_error, rest, ih]
      constructor
      · rintro (here | ⟨b, middle, passed, before, y, after, bs, last, rfl, earlier, later⟩)
        · exact ⟨[], x, xs, [], m, rfl, .nil, here⟩
        · exact ⟨x :: before, y, after, b :: bs, last, rfl, .cons passed earlier, later⟩
      · rintro ⟨before, y, after, bs, last, split, earlier, failed⟩
        obtain ⟨rfl, same⟩ | ⟨front, rfl, rfl⟩ := List.cons_eq_append_iff.mp split
        · cases same
          cases earlier
          exact .inl failed
        · cases earlier with
          | @cons _ _ _ middle _ b bs passed earlier =>
              exact .inr ⟨b, middle, passed, front, y, after, bs, last, rfl, earlier, failed⟩

/-- Only what steps achieve matters to taking them in turn. -/
theorem InTurn.congr {step' : γ → Build α β} {bs : List β} (h : InTurn step xs m bs m')
    (same : ∀ x ∈ xs, ∀ {m b m'},
      runOn (step x) m = (.ok b, m') → runOn (step' x) m = (.ok b, m')) :
    InTurn step' xs m bs m' := by
  induction h with
  | nil => exact .nil
  | @cons x xs _ _ _ _ _ first _ ih =>
      exact .cons (same x List.mem_cons_self first) (ih fun y later => same y (.tail x later))

@[simp] theorem inTurn_mapError {f : γ → Error α → Error α} {bs : List β} :
    InTurn (fun x => mapError (step x) (f x)) xs m bs m' ↔ InTurn step xs m bs m' :=
  ⟨fun h => h.congr fun _ _ _ _ _ => runOn_mapError_ok.mp,
    fun h => h.congr fun _ _ _ _ _ => runOn_mapError_ok.mpr⟩

end Turns

/-- Every outcome of the step leads from a model to one related to it. -/
def Keeps (R : Model α → Model α → Prop) (step : Build α β) : Prop :=
  ∀ m, R m (step.runOn m).2

namespace Keeps

variable {R : Model α → Model α → Prop} [IsPreorder (Model α) R]

omit [IsPreorder (Model α) R] in
/-- What a run that is at hand has kept. -/
theorem of_run {step : Build α β} (h : Keeps R step) {m m' : Model α} {o : Outcome α β}
    (run : step.runOn m = (o, m')) : R m m' := by
  have kept := h m
  rwa [run] at kept

theorem pure (b : β) : Keeps R (Pure.pure b : Build α β) :=
  fun m => refl m

theorem throw (e : Error α) : Keeps R (MonadExcept.throw e : Build α β) :=
  fun m => refl m

theorem liftM (o : Outcome α β) : Keeps R (MonadLiftT.monadLift o : Build α β) :=
  fun m => refl m

theorem get : Keeps R (MonadState.get : Build α (Model α)) :=
  fun m => refl m

/-- The second part only has to keep the relation on what the first part leaves when it succeeds. -/
theorem bind_of_ok {step : Build α β} {next : β → Build α γ} (first : Keeps R step)
    (second : ∀ {m b middle}, runOn step m = (.ok b, middle) →
      R middle ((next b).runOn middle).2) : Keeps R (step >>= next) := by
  intro m
  have h := first m
  rw [runOn_bind]
  cases run : runOn step m with
  | mk outcome middle =>
      rw [run] at h
      cases outcome with
      | error e => exact h
      | ok b => exact trans_of R h (second run)

theorem bind {step : Build α β} {next : β → Build α γ} (first : Keeps R step)
    (second : ∀ b, Keeps R (next b)) : Keeps R (step >>= next) :=
  first.bind_of_ok fun {_ b middle} _ => second b middle

omit [IsPreorder (Model α) R] in
theorem mapError {step : Build α β} (h : Keeps R step) (f : Error α → Error α) :
    Keeps R (Build.mapError step f) := by
  intro m
  have h := h m
  rw [runOn_mapError]
  generalize runOn step m = outcome at h ⊢
  obtain ⟨e | b, middle⟩ := outcome
  · exact h
  · exact h

omit [IsPreorder (Model α) R] in
/-- A failed atomic step is undone, so the relation must survive a rollback. -/
theorem atomically {step : Build α β} (h : Keeps R step)
    (undone : ∀ {m m'}, R m m' → R m (m'.rollback m.checkpoint)) :
    Keeps R (Build.atomically step) := by
  intro m
  have h := h m
  rw [runOn_atomically]
  generalize runOn step m = outcome at h ⊢
  obtain ⟨e | b, m'⟩ := outcome
  · exact undone h
  · exact h

theorem mapM {f : γ → Build α β} {xs : List γ} (h : ∀ x ∈ xs, Keeps R (f x)) :
    Keeps R (xs.mapM f) := by
  induction xs with
  | nil => exact .pure []
  | cons x xs ih =>
      have rest := ih fun y later => h y (List.mem_cons_of_mem x later)
      rw [List.mapM_cons]
      exact (h x List.mem_cons_self).bind fun b => rest.bind fun bs => .pure (b :: bs)

theorem forM {f : γ → Build α PUnit} {xs : List γ} (h : ∀ x ∈ xs, Keeps R (f x)) :
    Keeps R (xs.forM f) := by
  induction xs with
  | nil => exact .pure ()
  | cons x xs ih =>
      rw [List.forM_eq_forM, List.forM_cons]
      exact (h x List.mem_cons_self).bind fun _ => ih fun y later =>
        h y (List.mem_cons_of_mem x later)

theorem foldlM {f : δ → γ → Build α δ} (h : ∀ d x, Keeps R (f d x)) (xs : List γ) (init : δ) :
    Keeps R (xs.foldlM f init) := by
  induction xs generalizing init with
  | nil => exact .pure init
  | cons x xs ih =>
      rw [List.foldlM_cons]
      exact (h init x).bind fun d => ih d

end Keeps

/-- What each of some steps keeps is kept by taking them in turn. -/
theorem InTurn.keeps {R : Model α → Model α → Prop} [IsPreorder (Model α) R] {step : γ → Build α β}
    {xs : List γ} {m m' : Model α} {bs : List β} (h : InTurn step xs m bs m')
    (each : ∀ x ∈ xs, Keeps R (step x)) : R m m' :=
  (Keeps.mapM each).of_run (runOn_mapM_ok.mpr h)

end MipModel.Build
