import MipModel.Proofs.Alike
import MipModel.Proofs.Closure
import MipModel.Proofs.Soundness
import MipModel.Proofs.Switches

/-!
# Order independence

Two expressions that can be linearized in the same model can be linearized one after the other, in
either order. The results are those that they have on their own, and the two models that the two
orders lead to are alike (`linearize_interchange`).

The argument is one of commuting steps. Two gadgets that can be installed in a model can be
installed in either order (`interchange_install`): if they have the same name they are the same
gadget, and otherwise they have no variable in common, and the constant that the second one takes
from bounds does not depend on the variables of the first one. From two steps the square is extended
to a step and a list of steps, and then to two lists.
-/

namespace MipModel

open Model Build

variable {α : Type} [Scalar α] [Naming α] {s : Settings α} {g h : Gadget (Polynomial α) α}
  {gs hs : List (Gadget (Polynomial α) α)} {m n k : Model α}

section Squares

/-- What is encoded on its own can be encoded in the same way after another gadget. -/
theorem Model.EncodedBy.after (apart : Naming.KeepsApart α)
    (different : g.nameIn s.context ≠ h.nameIn s.context) (knows : m.Knows h)
    {added added' : List (String × Variable α)} {rows rows' : List (String × Constraint α)}
    (encoded : EncodedBy s g (g.nameIn s.context) m n added rows)
    (encoded' : EncodedBy s h (h.nameIn s.context) m k added' rows') :
    ∃ n' rows'', EncodedBy s h (h.nameIn s.context) n n' added' rows'' ∧
      rows''.map Prod.snd = rows'.map Prod.snd ∧
      (install s h).runOn n = (.ok (.var (h.nameIn s.context)), n') := by
  have new : n.memo.contains (h.nameIn s.context) = false := by
    rw [encoded.result, Registry.contains]
    change (Option.isSome (Registry.find? (m.memo.push _ _) _)) = false
    rw [Registry.find?_push_of_ne different.symm]
    exact encoded'.new
  have fresh : n.NewVariables (h.vars (h.nameIn s.context)) added' := by
    refine ⟨encoded'.vars.defined, fun e member => ?_, encoded'.vars.distinct⟩
    have own : e.1 ∈ (h.vars (h.nameIn s.context)).map Prod.fst :=
      encoded'.vars.names ▸ List.mem_map_of_mem member
    have unregistered := encoded'.vars.new e member
    rw [Registry.contains_eq_false_iff] at unregistered ⊢
    rw [encoded.result, vars_addMemo, vars_addRows, names_addVars, List.mem_append, not_or]
    refine ⟨unregistered, fun shared => ?_⟩
    exact apart g h s.context different (encoded.vars.names ▸ shared) own
  obtain ⟨n', rows'', encoded'', done⟩ := runOn_install_of_fresh (s := s) encoded.numbered new fresh
  refine ⟨n', rows'', encoded'', ?_, done⟩
  have constant : h.bigM s n.vars = h.bigM s m.vars :=
    Gadget.bigM_congr (fun _ => Registry.find?_of_prefix encoded.grows.vars) knows
  rw [encoded''.stored, encoded'.stored, constant]

/-- Two gadgets that can be installed can be installed in either order. -/
theorem interchange_install (apart : Naming.KeepsApart α) (consistent : m.Consistent)
    (shaped : g.WellShaped) (shaped' : h.WellShaped) (knows : m.Knows g) (knows' : m.Knows h)
    (same : g.nameIn s.context = h.nameIn s.context → g = h) {p q : Polynomial α}
    (done : (install s g).runOn m = (.ok p, n)) (done' : (install s h).runOn m = (.ok q, k)) :
    ∃ n' k', (install s h).runOn n = (.ok q, n') ∧ (install s g).runOn k = (.ok p, k') ∧
      n'.Alike k' := by
  have later := ((keeps_install s shaped).of_run done consistent).2.toExtends
  have later' := ((keeps_install s shaped').of_run done' consistent).2.toExtends
  obtain ⟨recorded, unchanged | ⟨added, rows, encoded⟩⟩ := install_ok consistent shaped done
  · subst unchanged
    exact ⟨k, k, done', runOn_install_of_recorded (later'.memo_find? recorded.2.2), .refl k⟩
  obtain ⟨recorded', unchanged | ⟨added', rows', encoded'⟩⟩ := install_ok consistent shaped' done'
  · subst unchanged
    exact ⟨n, n, runOn_install_of_recorded (later.memo_find? recorded'.2.2), done, .refl n⟩
  by_cases names : g.nameIn s.context = h.nameIn s.context
  · obtain rfl := same names
    obtain ⟨rfl, rfl⟩ : p = q ∧ n = k := by simpa [done] using done'
    have again := runOn_install_of_recorded recorded.2.2
    exact ⟨n, n, again, again, .refl n⟩
  · obtain ⟨n', later, second, values, run⟩ := encoded.after apart names knows' encoded'
    obtain ⟨k', later', second', values', run'⟩ :=
      encoded'.after apart (Ne.symm names) knows encoded
    obtain ⟨-, rfl, -⟩ := recorded
    obtain ⟨-, rfl, -⟩ := recorded'
    exact ⟨n', k', run, run', encoded.alike_of_swap second encoded' second' values'.symm values⟩

end Squares

/-- A gadget and a list of gadgets that can be installed can be installed in either order. -/
theorem interchange_installAll_install (apart : Naming.KeepsApart α) (orderly : m.Orderly)
    (shaped : ∀ g ∈ gs, g.WellShaped) (shaped' : h.WellShaped)
    (closed : Closed s.context (fun x => m.vars.contains x = true) gs) (knows : m.Knows h)
    (same : ∀ g ∈ gs, g.nameIn s.context = h.nameIn s.context → g = h) {q : Polynomial α}
    (done : (installAll s gs).runOn m = (.ok (), n))
    (done' : (install s h).runOn m = (.ok q, k)) :
    ∃ n' k', (install s h).runOn n = (.ok q, n') ∧ (installAll s gs).runOn k = (.ok (), k') ∧
      n'.Alike k' := by
  induction gs generalizing m k with
  | nil =>
      obtain rfl := runOn_installAll_nil.mp done
      exact ⟨k, k, done', runOn_installAll_nil.mpr rfl, .refl k⟩
  | cons g gs ih =>
      obtain ⟨shapedFirst, shapedRest⟩ := List.forall_mem_cons.mp shaped
      obtain ⟨sameFirst, sameRest⟩ := List.forall_mem_cons.mp same
      obtain ⟨p, middle, first, rest⟩ := runOn_installAll_cons.mp done
      have consistent := orderly.consistent
      have grows := ((keeps_install s shapedFirst).of_run first consistent).2
      -- The square at the first gadget, and the one over the others.
      obtain ⟨x, y, hx, hy, alike⟩ := interchange_install apart consistent shapedFirst shaped'
        closed.1 knows sameFirst first done'
      obtain ⟨n', k', hn, hk, alike'⟩ := ih (orderly.install shapedFirst first) shapedRest
        (closed.tail consistent shapedFirst first) (knows.mono grows.toExtends) sameRest rest hx
      -- The two squares meet in alike models only, so the others are carried over.
      have orderlyX := (orderly.install shapedFirst first).install shaped' hx
      have orderlyY := (orderly.install shaped' done').install shapedFirst hy
      obtain ⟨k'', hk', alike''⟩ := alike.installAll orderlyX orderlyY shapedRest hk
      exact ⟨n', k'', hn, runOn_installAll_cons.mpr ⟨p, y, hy, hk'⟩, alike'.trans alike''⟩

/-- Two lists of gadgets that can be installed can be installed in either order. -/
theorem interchange_installAll (apart : Naming.KeepsApart α) (orderly : m.Orderly)
    (shaped : ∀ g ∈ gs, g.WellShaped) (shaped' : ∀ h ∈ hs, h.WellShaped)
    (closed : Closed s.context (fun x => m.vars.contains x = true) gs)
    (closed' : Closed s.context (fun x => m.vars.contains x = true) hs)
    (same : ∀ g ∈ gs, ∀ h ∈ hs, g.nameIn s.context = h.nameIn s.context → g = h)
    (done : (installAll s gs).runOn m = (.ok (), n))
    (done' : (installAll s hs).runOn m = (.ok (), k)) :
    ∃ n' k', (installAll s hs).runOn n = (.ok (), n') ∧
      (installAll s gs).runOn k = (.ok (), k') ∧ n'.Alike k' := by
  induction hs generalizing m n with
  | nil =>
      obtain rfl := runOn_installAll_nil.mp done'
      exact ⟨n, n, runOn_installAll_nil.mpr rfl, done, .refl n⟩
  | cons h hs ih =>
      obtain ⟨shapedFirst, shapedRest⟩ := List.forall_mem_cons.mp shaped'
      obtain ⟨q, middle, first, rest⟩ := runOn_installAll_cons.mp done'
      have consistent := orderly.consistent
      have grows := ((keeps_install s shapedFirst).of_run first consistent).2
      obtain ⟨x, y, hx, hy, alike⟩ := interchange_installAll_install apart orderly shaped
        shapedFirst closed closed'.1 (fun g member => same g member h List.mem_cons_self) done first
      obtain ⟨n', k', hn, hk, alike'⟩ := ih (orderly.install shapedFirst first) shapedRest
        (closed.mono fun x => Registry.contains_of_prefix grows.vars)
        (closed'.tail consistent shapedFirst first)
        (fun g member h' later => same g member h' (List.mem_cons_of_mem h later)) hy rest
      have orderlyX := (orderly.installAll shaped done).install shapedFirst hx
      have orderlyY := (orderly.install shapedFirst first).installAll shaped hy
      obtain ⟨n'', hn', alike''⟩ := alike.symm.installAll orderlyY orderlyX shapedRest hn
      exact ⟨n'', k', runOn_installAll_cons.mpr ⟨q, x, hx, hn'⟩, hk, alike''.symm.trans alike'⟩

/-- The fingerprints of the gadgets that an expression asks for in a model. -/
def Model.fingerprints (m : Model α) (s : Settings α) (e : Expr α) (scope : Scope α) :
    Set (Fingerprint α) :=
  {f | ∃ x, e.Denotes (plans s.context) m.families scope x ∧
    ∃ g ∈ x.gadgets, f = g.fingerprint s.context}

section Expressions

variable {e₁ e₂ : Expr α} {scope₁ scope₂ : Scope α} {r₁ r₂ : Polynomial α} {m₁ m₂ : Model α}

/-- Two expressions can be linearized in either order, when names keep gadgets apart. -/
theorem interchange_linearize (apart : Naming.KeepsApart α) (orderly : m.Orderly)
    (embeds₁ : e₁.Every (Expr.Embeds fun q => q.Over fun x => m.vars.contains x = true))
    (embeds₂ : e₂.Every (Expr.Embeds fun q => q.Over fun x => m.vars.contains x = true))
    (injective : ∀ f₁ ∈ m.fingerprints s e₁ scope₁, ∀ f₂ ∈ m.fingerprints s e₂ scope₂,
      Naming.auxiliary f₁ = Naming.auxiliary f₂ → f₁ = f₂)
    (done₁ : (Model.linearize s e₁ scope₁).runOn m = (.ok r₁, m₁))
    (done₂ : (Model.linearize s e₂ scope₂).runOn m = (.ok r₂, m₂)) :
    ∃ m₁₂ m₂₁, (Model.linearize s e₂ scope₂).runOn m₁ = (.ok r₂, m₁₂) ∧
      (Model.linearize s e₁ scope₁).runOn m₂ = (.ok r₁, m₂₁) ∧ m₁₂.Alike m₂₁ := by
  have consistent := orderly.consistent
  obtain ⟨consistent₁, grows₁⟩ :=
    (undoable_grows.linearize s e₁ scope₁).of_run done₁ consistent
  obtain ⟨consistent₂, grows₂⟩ :=
    (undoable_grows.linearize s e₂ scope₂).of_run done₂ consistent
  obtain ⟨gs, planned₁, installed₁⟩ := (linearize_ok_iff consistent).mp done₁
  obtain ⟨hs, planned₂, installed₂⟩ := (linearize_ok_iff consistent).mp done₂
  have shaped₁ := (carriesOut_linearize e₁ scope₁).shaped planned₁
  have shaped₂ := (carriesOut_linearize e₂ scope₂).shaped planned₂
  have same : ∀ g ∈ gs, ∀ h ∈ hs, g.nameIn s.context = h.nameIn s.context → g = h :=
    fun g hg h hh names => Gadget.eq_of_fingerprint_eq (shaped₁ g hg) (shaped₂ h hh)
      (injective _ ⟨_, planned₁, g, hg, rfl⟩ _ ⟨_, planned₂, h, hh, rfl⟩ names)
  obtain ⟨m₁₂, m₂₁, run₁₂, run₂₁, alike⟩ := interchange_installAll apart orderly shaped₁ shaped₂
    (consistent.closed_of_denotes embeds₁ planned₁)
    (consistent.closed_of_denotes embeds₂ planned₂) same installed₁ installed₂
  -- Plans depend on the families, which neither expression has changed.
  rw [← grows₁.families] at planned₂
  rw [← grows₂.families] at planned₁
  exact ⟨m₁₂, m₂₁, (linearize_ok_iff consistent₁).mpr ⟨hs, planned₂, run₁₂⟩,
    (linearize_ok_iff consistent₂).mpr ⟨gs, planned₁, run₂₁⟩, alike⟩

end Expressions

section Binary64

variable {m m₁ m₂ : Model Float} {s : Settings Float} {e₁ e₂ : Expr Float}
  {scope₁ scope₂ : Scope Float} {r₁ r₂ : Polynomial Float}

/-- Two expressions over registered variables, each of which can be linearized in a reachable model,
can be linearized there one after the other, in either order and with the results that they have on
their own, provided that no two different gadgets of the one and the other have digests that make
their names the same. The models that the two orders lead to have the same variables, the same memo,
and the same rows but for their identifiers. -/
theorem linearize_interchange (reachable : m.Reachable)
    (embeds₁ : e₁.Every (Expr.Embeds fun q => q.Over fun x => m.vars.contains x = true))
    (embeds₂ : e₂.Every (Expr.Embeds fun q => q.Over fun x => m.vars.contains x = true))
    (injective : ∀ f₁ ∈ m.fingerprints s e₁ scope₁, ∀ f₂ ∈ m.fingerprints s e₂ scope₂,
      Fingerprint.name f₁ = Fingerprint.name f₂ → f₁ = f₂)
    (done₁ : (Model.linearize s e₁ scope₁).runOn m = (.ok r₁, m₁))
    (done₂ : (Model.linearize s e₂ scope₂).runOn m = (.ok r₂, m₂)) :
    ∃ m₁₂ m₂₁, (Model.linearize s e₂ scope₂).runOn m₁ = (.ok r₂, m₁₂) ∧
      (Model.linearize s e₁ scope₁).runOn m₂ = (.ok r₁, m₂₁) ∧ m₁₂.Alike m₂₁ ∧
      ∀ name, m₂₁.memo.find? name = m₁₂.memo.find? name := by
  obtain ⟨m₁₂, m₂₁, run₁₂, run₂₁, alike⟩ := interchange_linearize Fingerprint.keepsApart
    ⟨reachable.consistent, reachable.distinct⟩ embeds₁ embeds₂ injective done₁ done₂
  have distinct₁ : m₁.Distinct :=
    (invariant_distinct.elementary.linearize s e₁ scope₁).of_run done₁ reachable.distinct
  have distinct : m₁₂.Distinct :=
    (invariant_distinct.elementary.linearize s e₂ scope₂).of_run run₁₂ distinct₁
  exact ⟨m₁₂, m₂₁, run₁₂, run₂₁, alike, Registry.find?_eq_of_perm alike.memo distinct.memo⟩

/-- A maximum and a case distinction share a magnitude, which the second of them finds encoded. -/
theorem shared_magnitude_interchanged :
    let x : Expr Float := .poly (.var "x")
    let e₁ : Expr Float := .max [.abs x, .poly (.var "y")]
    let e₂ : Expr Float := .ifThenElse x (.abs x) (.const 3)
    let m : Model Float := .build .minimize .standard
      [.registerAs "x" .binary, .registerAs "y" .binary]
    ∃ r₁ m₁ r₂ m₂ m₁₂ m₂₁, (Model.linearize .standard e₁ .empty).runOn m = (.ok r₁, m₁) ∧
      (Model.linearize .standard e₂ .empty).runOn m = (.ok r₂, m₂) ∧
      (Model.linearize .standard e₂ .empty).runOn m₁ = (.ok r₂, m₁₂) ∧
      (Model.linearize .standard e₁ .empty).runOn m₂ = (.ok r₁, m₂₁) ∧ m₁₂.Alike m₂₁ ∧
      ∀ name, m₂₁.memo.find? name = m₁₂.memo.find? name := by
  intro x e₁ e₂ m
  have reachable : m.Reachable := Model.reachable_build _ _ _
  obtain ⟨r₁, m₁, done₁⟩ : ∃ r m', (Model.linearize .standard e₁ .empty).runOn m = (.ok r, m') :=
    exists_of_isOk (by decide +kernel)
  obtain ⟨r₂, m₂, done₂⟩ : ∃ r m', (Model.linearize .standard e₂ .empty).runOn m = (.ok r, m') :=
    exists_of_isOk (by decide +kernel)
  have registered : m.vars.contains "x" = true ∧ m.vars.contains "y" = true := by decide +kernel
  clear_value m
  have embeds₁ : e₁.Every (Expr.Embeds fun q => q.Over fun x => m.vars.contains x = true) :=
    ⟨trivial, ⟨trivial, Polynomial.over_var registered.1⟩, Polynomial.over_var registered.2,
      trivial⟩
  have embeds₂ : e₂.Every (Expr.Embeds fun q => q.Over fun x => m.vars.contains x = true) :=
    ⟨trivial, Polynomial.over_var registered.1, ⟨trivial, Polynomial.over_var registered.1⟩,
      trivial⟩
  have injective : ∀ f₁ ∈ m.fingerprints .standard e₁ .empty,
      ∀ f₂ ∈ m.fingerprints .standard e₂ .empty,
      Fingerprint.name f₁ = Fingerprint.name f₂ → f₁ = f₂ := by
    rintro
      f₁ ⟨_, ⟨_, ⟨_, _, ⟨_, rfl, -, rfl⟩, ⟨_, _, rfl, rfl, rfl⟩, rfl⟩, -, rfl⟩, g₁, asked₁, rfl⟩
      f₂ ⟨_, ⟨_, _, _, rfl, ⟨_, rfl, -, rfl⟩, rfl, -, rfl⟩, g₂, asked₂, rfl⟩
    let magnitude : Gadget (Polynomial Float) Float := .abs (.var "x")
    let stands : Polynomial Float := .var (magnitude.nameIn "")
    have maximum : g₁ = magnitude ∨ g₁ = .max [stands, .var "y"] := by
      simpa [magnitude, stands, Gadget.map, Gadget.operands, Settings.standard] using asked₁
    have choice : g₂ = magnitude ∨ g₂ = .ifThenElse (.var "x") stands (.constant 3) := by
      simpa [magnitude, stands, plans, Gadget.map, Gadget.operands, Settings.standard] using asked₂
    obtain rfl | rfl := maximum <;> obtain rfl | rfl := choice
    · exact fun _ => rfl
    all_goals exact fun names => absurd names (by decide +kernel)
  obtain ⟨m₁₂, m₂₁, run₁₂, run₂₁, alike, memo⟩ :=
    linearize_interchange reachable embeds₁ embeds₂ injective done₁ done₂
  exact ⟨r₁, m₁, r₂, m₂, m₁₂, m₂₁, done₁, done₂, run₁₂, run₂₁, alike, memo⟩

end Binary64

end MipModel
