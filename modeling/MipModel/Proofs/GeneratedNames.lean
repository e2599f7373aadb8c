import MipModel.Proofs.ClosedText
import MipModel.Proofs.Identifiers

/-!
# Generated names

The names of variables and of constraints are generated, from counters, labels, contexts and
digests. Only one step leaves the name of a variable to the caller. If callers choose identifiers
there, all names are identifiers (`generated_names`), whatever the labels, the indices and the
contexts are: nothing that a caller writes into those can break a line of a written model, or pass
for another part of it.
-/

namespace MipModel

open Model Build Identifier

def Operation.Registers {α : Type} (S : String → Prop) : Operation α → Prop
  | .registerAs name _ => S name
  | _ => True

def Model.NamesVariables {α : Type} (m : Model α) : Prop :=
  ∀ name ∈ m.vars.names, isName name = true

namespace Model.NamesVariables

section Registering

variable {α : Type} {m : Model α} {name : String}

theorem addVar (h : m.NamesVariables) (own : isName name = true) (v : Variable α) :
    (m.addVars [(name, v)]).NamesVariables := by
  intro other member
  rw [names_addVars, List.mem_append] at member
  obtain earlier | new := member
  · exact h other earlier
  · exact List.mem_singleton.mp new ▸ own

variable [Scalar α]

theorem registerAs (own : isName name = true) (options : Variable.Options α) :
    Keeps (Preserves NamesVariables) (Model.registerAs name options) := by
  intro m h
  obtain ⟨e, failed⟩ | ⟨v, -, -, done⟩ := runOn_registerAs name options m
  · rwa [failed]
  · rw [done]
    exact h.addVar own v

/-- Variables that are created have names with a counter. -/
theorem creating : Creating (α := α) (Preserves NamesVariables) where
  registerNext label options m h := by
    obtain ⟨e, failed⟩ | ⟨name, v, rfl, -, -, done⟩ := runOn_registerNext label options m
    · rwa [failed]
    · rw [done]
      exact h.addVar (isName_numbered (by decide) m.nextVariable label) v
  storeFamily _ _ h := h

end Registering

variable {m : Model Float}

/-- The elementary steps name variables by identifiers. -/
theorem elementary : Elementary (α := Float) (Preserves NamesVariables) where
  toCreating := creating
  install _ _ _ := keeps_install_of_parts
    (fun _ own => registerAs (Gadget.isName_of_mem_vars (List.mem_map_of_mem own)) _)
    (fun _ _ h => h) fun _ _ _ h => h
  addConstraint _ _ h := h
  rollback kept h name member :=
    kept h name (((List.take_sublist _ _).map Prod.fst).subset member)
  objective _ _ h := h

theorem advance (h : m.NamesVariables) {ops : List (Operation Float)}
    (given : ∀ op ∈ ops, op.Registers fun name => isName name = true) :
    (m.advance ops).NamesVariables := by
  induction ops generalizing m with
  | nil => exact h
  | cons op ops ih =>
      obtain ⟨first, rest⟩ := List.forall_mem_cons.mp given
      refine ih (elementary.run op (fun name options chosen => ?_) m h) rest
      subst chosen
      exact registerAs first options

end Model.NamesVariables

/-- A name that occurs in a model is registered, or the model mentions it. -/
theorem Model.registered_or_mentions_of_mem {α : Type} (m : Model α) {name : String}
    (h : name ∈ m.occurringNames) : name ∈ m.vars.names ∨ m.Mentions name := by
  obtain front | rows := List.mem_append.mp h
  · exact (List.mem_append.mp front).imp_right .inl
  · obtain ⟨c, stored, inside⟩ := List.mem_flatMap.mp rows
    exact .inr (.inr ⟨c, stored, inside⟩)

/-- Where callers choose identifiers only, all variables and all constraints are named by
identifiers, and no name is used twice. If callers also hand over no polynomials with other names
in them, a written model has no other names in it, and none of its lines is broken. -/
theorem generated_names (direction : Direction) (settings : Settings Float)
    (ops : List (Operation Float))
    (given : ∀ op ∈ ops, op.Registers fun name => isName name = true) :
    let m := Model.build direction settings ops
    ((∀ name ∈ m.vars.names, isName name = true) ∧
      (∀ id ∈ m.constraints.names, isName id = true)) ∧
    (m.vars.names.Nodup ∧ m.constraints.names.Nodup) ∧
    m.vars.values.map Variable.name = m.vars.names ∧
    ((∀ op ∈ ops, op.Over fun name => isName name = true) →
      ∀ d, Lp.Document.ofModel m = .ok d →
        (∀ name ∈ d.names, isName name = true) ∧ ∀ line ∈ d.lines, '\n' ∉ line.toList) := by
  intro m
  have reachable : m.Reachable := Model.reachable_build direction settings ops
  have consistent := reachable.consistent
  have vars : m.NamesVariables := by
    have none : (Model.empty direction settings).NamesVariables :=
      fun _ member => absurd member List.not_mem_nil
    exact none.advance given
  have ids : ∀ id ∈ m.constraints.names, isName id = true := fun _ => consistent.numbered.isName
  refine ⟨⟨vars, ids⟩, ⟨reachable.distinct.vars, reachable.distinct.constraints⟩,
    consistent.names_eq, fun handed d made => ?_⟩
  have named : ∀ name ∈ d.names, isName name = true := by
    intro name member
    obtain occurring | id :=
      Lp.mem_names_of_describes (Lp.describes_of_ofModel made) consistent name member
    · obtain own | mentioned := m.registered_or_mentions_of_mem occurring
      · exact vars name own
      · obtain known | chosen := known_of_build handed mentioned
        · exact vars name ((Registry.contains_eq_true_iff ..).mp known)
        · exact chosen
    · exact ids name id
  exact ⟨named, Lp.Document.unbroken_lines fun name member broken =>
    (solid_of_isName (named name member) _ broken).2 rfl⟩

/-- Labels, a family name, an index and a context that are no identifiers: the names and the written
model that they lead to. -/
theorem hostile_texts_named :
    let settings : Settings Float := { Settings.standard with context := "End\n" }
    let i : Generator Float := .of "i" (.values [-9223372036854775808])
    let x : Polynomial Float := .var "t_1"
    let ops : List (Operation Float) := [.createVariable "a: β" .free,
      .createFamily "x]\n" [i] .binary .empty, .registerAs "t_1" .free,
      .addConstraint { Constraint.compare x .ge .zero with label := some "c:\n" },
      .linearize settings (.abs (.poly x)) .empty]
    let m := Model.build .minimize settings ops
    m.vars.names = ["v00000_a___", "v00001_x___m9223372036854775808", "t_1",
        "abs_End__6f6510a3e068"] ∧
      m.constraints.names = ["c00000_c__", "c00001_abs_End__6f6510a3e068",
        "c00002_abs_End__6f6510a3e068"] ∧
      (∀ name ∈ m.vars.names, isName name = true) ∧ (∀ id ∈ m.constraints.names, isName id = true) ∧
      ∃ d, Lp.Document.ofModel m = .ok d ∧ ∀ line ∈ d.lines, '\n' ∉ line.toList := by
  intro settings i x ops m
  have given : ∀ op ∈ ops, op.Registers fun name => isName name = true := by
    simp [ops, Operation.Registers]
    decide
  have own : x.Over fun name => isName name = true := Polynomial.over_var (by decide)
  have handed : ∀ op ∈ ops, op.Over fun name => isName name = true := by
    simp only [ops, List.forall_mem_cons]
    refine ⟨trivial, trivial, trivial, ?_, ?_, nofun⟩
    · exact Constraint.over_compare own Polynomial.over_zero .ge
    · exact ⟨trivial, own⟩
  obtain ⟨⟨vars, ids⟩, -, -, unbroken⟩ := generated_names .minimize settings ops given
  have succeeds : (Lp.Document.ofModel m).isOk = true := by decide +kernel
  obtain ⟨d, made⟩ := exists_ok_of_isOk succeeds
  have lines : ∀ line ∈ d.lines, '\n' ∉ line.toList := (unbroken handed d made).2
  exact ⟨by decide +kernel, by decide +kernel, vars, ids, d, made, lines⟩

end MipModel
