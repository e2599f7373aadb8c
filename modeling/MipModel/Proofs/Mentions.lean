import MipModel.Proofs.Atomicity
import MipModel.Proofs.Closure
import MipModel.Proofs.Identity

/-!
# What models mention

The names in the objective and in the rows of a model come from three places: from the polynomials
that callers hand over or write into expressions, from the families that references stand for, and
from the gadgets that are installed. Families hold registered variables only, and a gadget registers
its variables before it stores its rows. So a name that is not registered was brought in by a
caller (`known_of_build`).
-/

namespace MipModel

open Model Build

variable {α : Type} [Scalar α]

section Rows

variable {S : String → Prop}

theorem Constraint.over_compare {p q : Polynomial α} (hp : p.Over S) (hq : q.Over S)
    (comparison : Comparison) : (compare p comparison q).lhs.Over S :=
  (hp.subtract hq).withoutConstant

namespace Gadget

open Constraint MipModel.Polynomial

theorem over_offWhile {switch : Polynomial α} (h : switch.Over S) (m : α) :
    (offWhile switch m).Over S :=
  ((over_constant 1).subtract h).scale m

theorem over_pieceRows {value argument switch : Polynomial α} (hv : value.Over S)
    (ha : argument.Over S) (hs : switch.Over S) (m : α) (piece : Piece α) :
    ∀ c ∈ pieceRows value argument switch m piece, c.lhs.Over S := by
  have segment : ((argument.scale piece.slope).add (constant piece.intercept)).Over S :=
    (ha.scale _).add (over_constant _)
  have slack := over_offWhile hs m
  simp only [pieceRows, List.forall_mem_cons]
  exact ⟨over_compare hv (segment.add slack) _, over_compare hv (segment.subtract slack) _,
    over_compare ha ((over_constant _).subtract slack) _,
    over_compare ha ((over_constant _).add slack) _, fun _ none => absurd none List.not_mem_nil⟩

/-- The rows of a gadget mention its operands' variables and its own. -/
theorem over_rows {g : Gadget (Polynomial α) α} {name : String}
    (operands : ∀ p ∈ g.operands, p.Over S) (own : ∀ v ∈ g.vars name, S v.1) (m : α) :
    ∀ c ∈ g.rows name m, c.lhs.Over S := by
  have value : (var name : Polynomial α).Over S := over_var (own _ List.mem_cons_self)
  have switch : ∀ companion ∈ g.companions name, (var companion : Polynomial α).Over S :=
    fun companion member =>
      over_var (own (companion, .binary) (List.mem_cons_of_mem _ (List.mem_map_of_mem member)))
  have each (es : List (Polynomial α)) (comparison : Comparison) (h : ∀ p ∈ es, p.Over S) :
      ∀ c ∈ es.map fun e => compare (var name) comparison e, c.lhs.Over S :=
    List.forall_mem_map.mpr fun e member => over_compare value (h e member) comparison
  cases g with
  | abs e =>
      have operand := operands e List.mem_cons_self
      simp only [rows, List.forall_mem_cons]
      exact ⟨over_compare value operand _, over_compare value operand.negate _,
        fun _ none => absurd none List.not_mem_nil⟩
  | max es => exact each es .ge operands
  | min es => exact each es .le operands
  | and es =>
      refine List.forall_mem_append.mpr ⟨each es .le operands, List.forall_mem_singleton.mpr ?_⟩
      exact over_compare value ((over_sum operands).subtract (over_constant _)) _
  | or es =>
      refine List.forall_mem_append.mpr ⟨each es .ge operands, List.forall_mem_singleton.mpr ?_⟩
      exact over_compare value (over_sum operands) _
  | ifThenElse c t f =>
      simp only [Gadget.operands, List.forall_mem_cons] at operands
      obtain ⟨condition, yes, no, -⟩ := operands
      have chosen := switch (name ++ "_c") (List.mem_singleton_self _)
      have off := over_offWhile chosen m
      have on := chosen.scale m
      simp only [rows, List.forall_mem_cons]
      exact ⟨over_compare chosen condition _, over_compare value (yes.add off) _,
        over_compare value (yes.subtract off) _, over_compare value (no.add on) _,
        over_compare value (no.subtract on) _, fun _ none => absurd none List.not_mem_nil⟩
  | piecewise e shape =>
      have argument := operands e List.mem_cons_self
      have switches := List.forall_mem_map.mpr switch
      refine List.forall_mem_cons.mpr
        ⟨over_compare (over_sum switches) (over_constant 1) _, List.forall_mem_flatMap.mpr ?_⟩
      rintro ⟨p, piece⟩ member
      exact over_pieceRows value argument (switches p (List.of_mem_zip member).1) m piece

end Gadget

end Rows

namespace Model

variable {T : String → Prop} {m n : Model α}

omit [Scalar α] in
def Mentions (m : Model α) (name : String) : Prop :=
  name ∈ m.objective.occurrences ∨ ∃ c ∈ m.constraints.values, name ∈ c.lhs.occurrences

omit [Scalar α] in
def Known (m : Model α) (T : String → Prop) (name : String) : Prop :=
  m.vars.contains name = true ∨ T name

omit [Scalar α] in
/-- The objective and the rows are made of registered variables and of given names. -/
structure MadeOf (m : Model α) (T : String → Prop) : Prop where
  objective : m.objective.Over (m.Known T)
  rows : ∀ c ∈ m.constraints.values, c.lhs.Over (m.Known T)

namespace MadeOf

omit [Scalar α] in
theorem known (h : m.MadeOf T) {name : String} (mentioned : m.Mentions name) : m.Known T name := by
  obtain inside | ⟨c, stored, inside⟩ := mentioned
  · exact Polynomial.over_iff_occurrences.mp h.objective name inside
  · exact Polynomial.over_iff_occurrences.mp (h.rows c stored) name inside

omit [Scalar α] in
theorem empty (direction : Direction) (settings : Settings α) :
    (Model.empty direction settings).MadeOf T where
  objective := Polynomial.over_zero
  rows _ none := absurd none List.not_mem_nil

omit [Scalar α] in
/-- More registered variables, and no other change that matters. -/
theorem more (h : m.MadeOf T) (vars : m.vars.entries <+: n.vars.entries)
    (objective : n.objective = m.objective) (constraints : n.constraints = m.constraints) :
    n.MadeOf T := by
  have later (x : String) : m.Known T x → n.Known T x :=
    Or.imp_left (Registry.contains_of_prefix vars)
  refine ⟨?_, ?_⟩
  · rw [objective]
    exact h.objective.mono later
  · rw [constraints]
    exact fun c stored => (h.rows c stored).mono later

omit [Scalar α] in
theorem addRows (h : m.MadeOf T) {rows : List (String × Constraint α)}
    (made : ∀ r ∈ rows, r.2.lhs.Over (m.Known T)) : (m.addRows rows).MadeOf T where
  objective := h.objective
  rows := by
    rw [Registry.values, List.forall_mem_map]
    refine List.forall_mem_append.mpr ⟨fun e stored => ?_, made⟩
    exact h.rows e.2 (List.mem_map_of_mem stored)

theorem increase (h : m.MadeOf T) {p : Polynomial α} (made : p.Over (m.Known T)) :
    ({ m with objective := m.objective.add p } : Model α).MadeOf T :=
  ⟨h.objective.add made, h.rows⟩

theorem decrease (h : m.MadeOf T) {p : Polynomial α} (made : p.Over (m.Known T)) :
    ({ m with objective := m.objective.subtract p } : Model α).MadeOf T :=
  ⟨h.objective.subtract made, h.rows⟩

variable {s : Settings α} {g : Gadget (Polynomial α) α} {p : Polynomial α}

/-- The variables of a gadget are registered before its rows are stored. -/
theorem encodedBy (h : m.MadeOf T) (operands : ∀ p ∈ g.operands, p.Over (m.Known T))
    {name : String} {added : List (String × Variable α)} {rows : List (String × Constraint α)}
    (encoded : EncodedBy s g name m n added rows) : n.MadeOf T := by
  obtain ⟨-, vars, stored, -, rfl⟩ := encoded
  have later (x : String) : m.Known T x → (m.addVars added).Known T x :=
    Or.imp_left (Registry.contains_of_prefix (List.prefix_append _ _))
  have own : ∀ v ∈ g.vars name, (m.addVars added).Known T v.1 := by
    intro v member
    have listed : v.1 ∈ added.map Prod.fst := vars.names ▸ List.mem_map_of_mem member
    obtain ⟨e, here, same⟩ := List.mem_map.mp listed
    exact .inl (same ▸ Registry.contains_of_mem (List.mem_append_right _ here))
  have made := Gadget.over_rows (fun p member => (operands p member).mono later) own
    (g.bigM s m.vars)
  have labelled : ∀ r ∈ rows, r.2.lhs.Over ((m.addVars added).Known T) := by
    intro r member
    have listed : r.2 ∈ rows.map Prod.snd := List.mem_map_of_mem member
    rw [stored] at listed
    obtain ⟨c, here, same⟩ := List.mem_map.mp listed
    rw [← same]
    exact made c here
  have registered : (m.addVars added).MadeOf T := h.more (List.prefix_append _ _) rfl rfl
  exact (registered.addRows labelled).more List.prefix_rfl rfl rfl

variable [Naming α]

theorem install (h : m.MadeOf T) (consistent : m.Consistent) (shaped : g.WellShaped)
    (operands : ∀ p ∈ g.operands, p.Over (m.Known T))
    (done : (Model.install s g).runOn m = (.ok p, n)) : n.MadeOf T := by
  obtain ⟨-, rfl | ⟨added, rows, encoded⟩⟩ := install_ok consistent shaped done
  · exact h
  · exact h.encodedBy operands encoded

/-- Gadgets that are installed one after another find the variables of earlier ones registered. -/
theorem installAll {gs : List (Gadget (Polynomial α) α)} (h : m.MadeOf T)
    (consistent : m.Consistent) (shaped : ∀ g ∈ gs, g.WellShaped)
    (closed : Closed s.context (m.Known T) gs)
    (done : (Model.installAll s gs).runOn m = (.ok (), n)) : n.MadeOf T := by
  induction gs generalizing m with
  | nil =>
      obtain rfl := runOn_installAll_nil.mp done
      exact h
  | cons g gs ih =>
      obtain ⟨shapedFirst, shapedRest⟩ := List.forall_mem_cons.mp shaped
      obtain ⟨p, middle, first, rest⟩ := runOn_installAll_cons.mp done
      obtain ⟨consistent', grows⟩ := (keeps_install s shapedFirst).of_run first consistent
      refine ih (h.install consistent shapedFirst closed.1 first) consistent' shapedRest ?_ rest
      exact closed.tail_of consistent shapedFirst first
        (fun x => Or.imp_left (Registry.contains_of_prefix grows.vars)) fun x => .inl

variable {e : Expr α} {scope : Scope α}

/-- What an expression is linearized to is made of what is known afterwards. -/
theorem linearize (h : m.MadeOf T) (consistent : m.Consistent)
    (embeds : e.Every (Expr.Embeds fun q => q.Over (m.Known T)))
    (done : (Model.linearize s e scope).runOn m = (.ok p, n)) :
    n.MadeOf T ∧ p.Over (n.Known T) := by
  obtain ⟨gs, planned, installed⟩ := (linearize_ok_iff consistent).mp done
  have shaped := (carriesOut_linearize e scope).shaped planned
  have within := consistent.within_of_denotes (fun _ => .inl) embeds planned
  obtain ⟨consistent', grows⟩ := (keeps_installAll shaped).of_run installed consistent
  refine ⟨h.installAll consistent shaped within.closed installed, within.result.mono fun x => ?_⟩
  rintro (before | ⟨g, asked, rfl⟩)
  · exact before.imp_left (Registry.contains_of_prefix grows.vars)
  · have recorded := recorded_of_installAll consistent shaped installed g asked
    exact .inl (consistent'.contains_of_recorded recorded.2.2)

omit [Naming α] in
theorem registerAs (name : String) (options : Variable.Options α) :
    Keeps (Preserves fun m => m.MadeOf T) (Model.registerAs name options) := by
  intro m h
  obtain ⟨e, failed⟩ | ⟨v, -, -, done⟩ := runOn_registerAs name options m
  · rwa [failed]
  · rw [done]
    exact h.more (List.prefix_append _ _) rfl rfl

omit [Naming α] in
/-- The steps that create variables and families bring no names in. -/
theorem creating : Creating (Preserves fun m : Model α => m.MadeOf T) where
  registerNext label options m h := by
    obtain ⟨e, failed⟩ | ⟨name, v, -, -, -, done⟩ := runOn_registerNext label options m
    · rwa [failed]
    · rw [done]
      exact h.more (List.prefix_append _ _) rfl rfl
  storeFamily f m h := h.more List.prefix_rfl rfl rfl

theorem addConstraint (h : m.MadeOf T) (consistent : m.Consistent) {c : Constraint α}
    (made : c.lhs.Over (m.Known T)) : ((Model.addConstraint c).runOn m).2.MadeOf T := by
  obtain ⟨label, done⟩ := runOn_addConstraint consistent.numbered c
  rw [done]
  exact h.addRows (List.forall_mem_singleton.mpr made)

end MadeOf

end Model

omit [Scalar α] in
/-- A step that changes nothing when it fails keeps what its successes keep. -/
theorem Build.AllOrNothing.keeps {β : Type} {P : Model α → Prop} {m : Model α} {step : Build α β}
    (h : AllOrNothing m step) (holds : P m)
    (success : ∀ {b m'}, step.runOn m = (.ok b, m') → P m') : P (step.runOn m).2 := by
  rcases run : step.runOn m with ⟨e | b, m'⟩
  · exact h e m' run ▸ holds
  · exact success run

/-- Every polynomial that a caller hands over with a step or writes into an expression is made of
given names. -/
def Operation.Over (T : String → Prop) : Operation α → Prop
  | .addConstraint c => c.lhs.Over T
  | .increaseObjective p | .decreaseObjective p => p.Over T
  | .linearize _ e _ | .addToObjective e _ => e.Every (Expr.Embeds fun q => q.Over T)
  | .constrain lhs _ rhs _ _ | .constrainEach lhs _ rhs _ _ _ =>
    lhs.Every (Expr.Embeds fun q => q.Over T) ∧ rhs.Every (Expr.Embeds fun q => q.Over T)
  | _ => True

section Steps

variable [Naming α] {T : String → Prop} {m n : Model α}

omit [Scalar α] [Naming α] in
theorem Expr.embeds_known {e : Expr α} (h : e.Every (Expr.Embeds fun q => q.Over T)) (m : Model α) :
    e.Every (Expr.Embeds fun q => q.Over (m.Known T)) := by
  refine h.imp fun e embedded => ?_
  cases e with
  | poly p => exact Polynomial.Over.mono embedded fun x => .inr
  | _ => trivial

namespace Model.MadeOf

/-- Both sides of a constraint are linearized, and what they come to is compared. -/
theorem constrain {lhs rhs : Expr α} {comparison : Comparison} {scope : Scope α}
    {label : Option String} {id : String} (h : m.MadeOf T) (consistent : m.Consistent)
    (left : lhs.Every (Expr.Embeds fun q => q.Over T))
    (right : rhs.Every (Expr.Embeds fun q => q.Over T))
    (done : (Model.constrain lhs comparison rhs scope label).runOn m = (.ok id, n)) :
    n.MadeOf T := by
  simp only [Model.constrain, runOn_bind_ok, runOn_get_ok] at done
  obtain ⟨_, _, ⟨rfl, rfl⟩, done⟩ := done
  simp only [runOn_atomically_ok, runOn_bind_ok] at done
  obtain ⟨p, m₁, first, q, m₂, second, stored⟩ := done
  obtain ⟨made₁, over₁⟩ := h.linearize consistent (Expr.embeds_known left _) first
  obtain ⟨consistent₁, -⟩ := (undoable_grows.linearize _ lhs scope).of_run first consistent
  obtain ⟨made₂, over₂⟩ := made₁.linearize consistent₁ (Expr.embeds_known right _) second
  obtain ⟨consistent₂, grows⟩ := (undoable_grows.linearize _ rhs scope).of_run second consistent₁
  have still : p.Over (m₂.Known T) :=
    over₁.mono fun x => Or.imp_left (Registry.contains_of_prefix grows.vars)
  have kept := made₂.addConstraint consistent₂
    (c := { Constraint.compare p comparison q with label := label })
    (Constraint.over_compare still over₂ comparison)
  rwa [stored] at kept

theorem constrainEach {lhs rhs : Expr α} {comparison : Comparison}
    {generators : List (Generator α)} {scope : Scope α} {label : String} {ids : List String}
    (h : m.MadeOf T) (consistent : m.Consistent)
    (left : lhs.Every (Expr.Embeds fun q => q.Over T))
    (right : rhs.Every (Expr.Embeds fun q => q.Over T))
    (done : (Model.constrainEach lhs comparison rhs generators scope label).runOn m =
      (.ok ids, n)) : n.MadeOf T := by
  simp only [Model.constrainEach, runOn_bind_ok, runOn_liftM_ok, runOn_atomically_ok] at done
  obtain ⟨scopes, _, ⟨-, rfl⟩, done⟩ := done
  have each := mapM_ok (P := fun m => m.Consistent ∧ m.MadeOf T)
    (R := Preserves fun m => m.Consistent ∧ m.MadeOf T) (Q := fun _ _ _ => True)
    (fun preserved => preserved) (fun _ _ => id)
    (fun inner _ {m m' id} holds run => ⟨fun _ => ?_, trivial⟩) ⟨consistent, h⟩ done
  · exact (each.1 ⟨consistent, h⟩).2
  · have run := runOn_mapError_ok.mp run
    obtain ⟨consistent', -⟩ :=
      (undoable_grows.constrain lhs comparison rhs inner _).of_run run holds.1
    exact ⟨consistent', holds.2.constrain holds.1 left right run⟩

/-- A step brings in no names but those that are handed over with it. -/
theorem run (h : m.MadeOf T) (consistent : m.Consistent) {op : Operation α} (given : op.Over T) :
    (op.run.runOn m).2.MadeOf T := by
  have whole {β : Type} {step : Build α β} (kept : (step.runOn m).2.MadeOf T) :
      ((step >>= fun _ => pure ()).runOn m).2.MadeOf T := by
    rw [runOn_bind]
    rcases run : step.runOn m with ⟨e | b, m'⟩ <;> rwa [run] at kept
  have known {p : Polynomial α} (made : p.Over T) : p.Over (m.Known T) := made.mono fun x => .inr
  cases op with
  | createVariable label options => exact whole (creating.createVariable label options m h)
  | createFamily name generators options data =>
      exact whole (creating.createFamily name generators options data m h)
  | registerAs name options => exact whole (registerAs name options m h)
  | defineFamily f => exact creating.defineFamily f m h
  | addConstraint c => exact whole (h.addConstraint consistent (known given))
  | increaseObjective p => exact h.increase (known given)
  | decreaseObjective p => exact h.decrease (known given)
  | linearize s e scope =>
      exact whole ((allOrNothing_linearize consistent s e scope).keeps h fun done =>
        (h.linearize consistent (Expr.embeds_known given m) done).1)
  | addToObjective e scope =>
      refine whole ((allOrNothing_addToObjective consistent e scope).keeps
        (P := fun m => m.MadeOf T) h fun done => ?_)
      simp only [Model.addToObjective, runOn_bind_ok, runOn_get_ok, runOn_pure_ok] at done
      obtain ⟨_, _, ⟨rfl, rfl⟩, p, middle, linearized, _, _, increased, -, rfl⟩ := done
      obtain ⟨made, result⟩ := h.linearize consistent (Expr.embeds_known given _) linearized
      cases increased
      exact made.increase result
  | constrain lhs comparison rhs scope label =>
      exact whole ((allOrNothing_constrain consistent lhs comparison rhs scope label).keeps h
        (h.constrain consistent given.1 given.2))
  | constrainEach lhs comparison rhs generators scope label =>
      exact whole ((allOrNothing_constrainEach consistent lhs comparison rhs generators scope
        label).keeps h (h.constrainEach consistent given.1 given.2))

theorem advance (h : m.MadeOf T) (consistent : m.Consistent) {ops : List (Operation α)}
    (given : ∀ op ∈ ops, op.Over T) : (m.advance ops).MadeOf T := by
  induction ops generalizing m with
  | nil => exact h
  | cons op ops ih =>
      obtain ⟨first, rest⟩ := List.forall_mem_cons.mp given
      exact ih (h.run consistent first) (keeps_run op m consistent).1 rest

end Model.MadeOf

/-- A name that a model mentions is registered, or it was brought in by a caller. -/
theorem known_of_build {direction : Direction} {settings : Settings α} {ops : List (Operation α)}
    (given : ∀ op ∈ ops, op.Over T) {name : String}
    (mentioned : (Model.build direction settings ops).Mentions name) :
    (Model.build direction settings ops).vars.contains name = true ∨ T name := by
  have made : (Model.build direction settings ops).MadeOf T :=
    (MadeOf.empty direction settings).advance (consistent_empty direction settings) given
  exact made.known mentioned

end Steps

end MipModel
