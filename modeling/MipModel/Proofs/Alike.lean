import MipModel.Proofs.Enclosures
import MipModel.Proofs.Identity
import MipModel.Proofs.Plans

/-!
# Alike models

Two models are alike when they differ in the order in which things were registered only: they have
the same variables, the same memo and the same rows, the rows perhaps under other identifiers.

Installing a gadget looks things up by name and appends, so it does not tell alike models apart, and
leaves alike models behind (`Alike.install`, `Alike.installAll`).
-/

namespace MipModel

theorem Registry.find?_eq_of_perm {β : Type} {r r' : Registry β}
    (same : r.entries.Perm r'.entries) (distinct : r.names.Nodup) (name : String) :
    r'.find? name = r.find? name := by
  have distinct' : r'.names.Nodup := (same.map Prod.fst).nodup_iff.mp distinct
  refine Option.ext fun value => ?_
  rw [find?_eq_some_iff distinct, find?_eq_some_iff distinct']
  exact same.symm.mem_iff

variable {α : Type}

namespace Model

/-- The models hold the same, up to the order of registration and the identifiers of rows. -/
structure Alike (m n : Model α) : Prop where
  direction : n.direction = m.direction
  objective : n.objective = m.objective
  families : n.families = m.families
  settings : n.settings = m.settings
  nextVariable : n.nextVariable = m.nextVariable
  nextConstraint : n.nextConstraint = m.nextConstraint
  vars : m.vars.entries.Perm n.vars.entries
  memo : m.memo.entries.Perm n.memo.entries
  rows : m.constraints.values.Perm n.constraints.values

theorem Alike.refl (m : Model α) : m.Alike m :=
  ⟨rfl, rfl, rfl, rfl, rfl, rfl, .refl _, .refl _, .refl _⟩

theorem Alike.symm {m n : Model α} (h : m.Alike n) : n.Alike m :=
  ⟨h.direction.symm, h.objective.symm, h.families.symm, h.settings.symm, h.nextVariable.symm,
    h.nextConstraint.symm, h.vars.symm, h.memo.symm, h.rows.symm⟩

theorem Alike.trans {m n k : Model α} (h : m.Alike n) (h' : n.Alike k) : m.Alike k :=
  ⟨h'.direction.trans h.direction, h'.objective.trans h.objective, h'.families.trans h.families,
    h'.settings.trans h.settings, h'.nextVariable.trans h.nextVariable,
    h'.nextConstraint.trans h.nextConstraint, h.vars.trans h'.vars, h.memo.trans h'.memo,
    h.rows.trans h'.rows⟩

variable [Scalar α]

/-- A gadget's operands are made of registered variables. -/
def Knows (m : Model α) (g : Gadget (Polynomial α) α) : Prop :=
  ∀ p ∈ g.operands, p.Over fun x => m.vars.contains x = true

omit [Scalar α] in
theorem Knows.mono {m m' : Model α} {g : Gadget (Polynomial α) α} (h : m.Knows g)
    (later : m.Extends m') : m'.Knows g :=
  fun p member => (h p member).mono fun _ => Registry.contains_of_prefix later.vars

end Model

open Model Build

variable [Scalar α] {s : Settings α} {g h : Gadget (Polynomial α) α} {m m' n n' : Model α}

/-- The constant of a gadget depends on the variables in its operands only. -/
theorem Gadget.bigM_congr {vars vars' : Registry (Variable α)} {S : String → Prop}
    (same : ∀ x, S x → vars'.find? x = vars.find? x) (among : ∀ p ∈ g.operands, p.Over S) :
    g.bigM s vars' = g.bigM s vars := by
  cases g with
  | ifThenElse c t f =>
      have ht := among t (by simp [operands])
      have hf := among f (by simp [operands])
      simp only [bigM, BigM.forDifference, Enclosure.ofPolynomial?_congr same (ht.subtract hf)]
  | piecewise e shape =>
      have he := among e List.mem_cons_self
      simp only [bigM, BigM.forPiecewise, Enclosure.ofPolynomial?_congr same he]
  | _ => rfl

section Encodings

variable {name name' : String} {added added' : List (String × Variable α)}
  {rows rows' later later' : List (String × Constraint α)} {k k' : Model α}

namespace Model.EncodedBy

/-- Encodings of the same, from alike models, lead to alike models. -/
theorem alike (encoded : EncodedBy s g name m m' added rows)
    (encoded' : EncodedBy s g name n n' added rows') (alike : m.Alike n)
    (same : rows.map Prod.snd = rows'.map Prod.snd) : m'.Alike n' := by
  have lengths : rows.length = rows'.length := by simpa using congrArg List.length same
  rw [encoded.result, encoded'.result]
  exact
    { alike with
      nextConstraint := by simp [alike.nextConstraint, lengths]
      vars := alike.vars.append_right added
      memo := alike.memo.append_right _
      rows := by
        simpa [same] using alike.rows.append_right _ }

/-- Two gadgets that are encoded in either order lead to alike models. -/
theorem alike_of_swap (first : EncodedBy s g name m n added rows)
    (second : EncodedBy s h name' n n' added' later)
    (first' : EncodedBy s h name' m k added' later')
    (second' : EncodedBy s g name k k' added rows')
    (same : rows.map Prod.snd = rows'.map Prod.snd)
    (same' : later.map Prod.snd = later'.map Prod.snd) : n'.Alike k' := by
  have lengths : rows.length = rows'.length := by simpa using congrArg List.length same
  have lengths' : later.length = later'.length := by simpa using congrArg List.length same'
  have swap {β : Type} (xs ys zs : List β) : (xs ++ (ys ++ zs)).Perm (xs ++ (zs ++ ys)) :=
    List.perm_append_comm.append_left xs
  rw [second.result, first.result, second'.result, first'.result]
  exact
    { direction := rfl
      objective := rfl
      families := rfl
      settings := rfl
      nextVariable := rfl
      nextConstraint := by simp [lengths, lengths', Nat.add_right_comm]
      vars := by simpa using swap _ _ _
      memo := by simpa using swap _ [(name, _)] [(name', _)]
      rows := by simpa [same, same'] using swap _ _ _ }

end Model.EncodedBy

end Encodings

variable [Naming α]

/-- A model that is consistent and holds every name once. -/
structure Model.Orderly (m : Model α) : Prop where
  consistent : m.Consistent
  distinct : m.Distinct

theorem Model.Orderly.install (orderly : m.Orderly) (shaped : g.WellShaped)
    {o : Outcome α (Polynomial α)} (run : (Model.install s g).runOn m = (o, m')) : m'.Orderly :=
  ⟨((keeps_install s shaped).of_run run orderly.consistent).1,
    (invariant_distinct.install s g).of_run run orderly.distinct⟩

/-- A gadget can be installed under a new name if its variables are new. -/
theorem runOn_install_of_fresh (numbered : m.Numbered)
    (new : m.memo.contains (g.nameIn s.context) = false) {added : List (String × Variable α)}
    (fresh : m.NewVariables (g.vars (g.nameIn s.context)) added) :
    ∃ m' rows, EncodedBy s g (g.nameIn s.context) m m' added rows ∧
      (install s g).runOn m = (.ok (.var (g.nameIn s.context)), m') := by
  obtain ⟨m', rows, encoded, done⟩ := runOn_encode_of_new (s := s) numbered new fresh
  have unknown : m.memo.find? (g.nameIn s.context) = none := by
    simpa [Registry.contains] using new
  exact ⟨m', rows, encoded, (runOn_install_of_new unknown).trans done⟩

/-- What can be installed in a model can be installed in one that is alike, with the same result,
and the models stay alike. -/
theorem Model.Alike.install (alike : m.Alike n) (orderly : m.Orderly) (orderly' : n.Orderly)
    (shaped : g.WellShaped) {p : Polynomial α} (done : (Model.install s g).runOn m = (.ok p, m')) :
    ∃ n', (Model.install s g).runOn n = (.ok p, n') ∧ m'.Alike n' := by
  have memo := Registry.find?_eq_of_perm alike.memo orderly.distinct.memo
  have vars := Registry.find?_eq_of_perm alike.vars orderly.distinct.vars
  obtain ⟨⟨-, rfl, found⟩, rfl | ⟨added, rows, encoded⟩⟩ :=
    install_ok orderly.consistent shaped done
  · exact ⟨n, runOn_install_of_recorded ((memo _).trans found), alike⟩
  · have new : n.memo.contains (g.nameIn s.context) = false := by
      rw [Registry.contains, memo]
      exact encoded.new
    have fresh : n.NewVariables (g.vars (g.nameIn s.context)) added :=
      ⟨encoded.vars.defined, fun e member => by
        rw [Registry.contains, vars]
        exact encoded.vars.new e member, encoded.vars.distinct⟩
    obtain ⟨n', rows', encoded', done'⟩ :=
      runOn_install_of_fresh (s := s) orderly'.consistent.numbered new fresh
    have constant : g.bigM s n.vars = g.bigM s m.vars :=
      Gadget.bigM_congr (S := fun _ => True) (fun x _ => vars x) fun _ _ _ _ _ _ => trivial
    refine ⟨n', done', encoded.alike encoded' alike ?_⟩
    rw [encoded.stored, encoded'.stored, constant]

section Lists

variable {gs : List (Gadget (Polynomial α) α)}

theorem Model.Orderly.installAll (orderly : m.Orderly) (shaped : ∀ g ∈ gs, g.WellShaped)
    (done : (Model.installAll s gs).runOn m = (.ok (), m')) : m'.Orderly := by
  induction gs generalizing m with
  | nil =>
      obtain rfl := runOn_installAll_nil.mp done
      exact orderly
  | cons g gs ih =>
      obtain ⟨shapedFirst, shapedRest⟩ := List.forall_mem_cons.mp shaped
      obtain ⟨p, middle, first, rest⟩ := runOn_installAll_cons.mp done
      exact ih (orderly.install shapedFirst first) shapedRest rest

theorem Model.Alike.installAll (alike : m.Alike n) (orderly : m.Orderly) (orderly' : n.Orderly)
    (shaped : ∀ g ∈ gs, g.WellShaped) (done : (Model.installAll s gs).runOn m = (.ok (), m')) :
    ∃ n', (Model.installAll s gs).runOn n = (.ok (), n') ∧ m'.Alike n' := by
  induction gs generalizing m n with
  | nil =>
      obtain rfl := runOn_installAll_nil.mp done
      exact ⟨n, runOn_installAll_nil.mpr rfl, alike⟩
  | cons g gs ih =>
      obtain ⟨shapedFirst, shapedRest⟩ := List.forall_mem_cons.mp shaped
      obtain ⟨p, middle, first, rest⟩ := runOn_installAll_cons.mp done
      obtain ⟨middle', first', alike'⟩ := alike.install orderly orderly' shapedFirst first
      obtain ⟨n', rest', alike'⟩ := ih alike' (orderly.install shapedFirst first)
        (orderly'.install shapedFirst first') shapedRest rest
      exact ⟨n', runOn_installAll_cons.mpr ⟨p, middle', first', rest'⟩, alike'⟩

end Lists

end MipModel
