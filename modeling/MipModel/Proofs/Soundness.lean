import MipModel.Proofs.Feasibility
import MipModel.Proofs.Reachability
import MipModel.Proofs.Spelling
import MipModel.Proofs.Truth

/-!
# Soundness of the encodings

On every feasible assignment the polynomial that stands for an expression has the value that the
rows of its constructs enforce. The argument goes from a memo entry to the gadget it was made for:
the names of auxiliaries tell gadgets apart, so an entry found under the name of a gadget is backed
by the rows of that very gadget, whenever and with whatever settings these were written.

For constructs other than magnitudes, maxima and minima the rows leave no choice, and the
enforced value is the exact one.
-/

namespace MipModel

namespace Piecewise

/-- What a successful check says about the lists. -/
theorem lengths_of_check {α : Type} [Scalar α] {shape : Piecewise α} (h : shape.check = .ok ()) :
    shape.size ≠ 0 ∧ shape.intercepts.length = shape.size ∧
      shape.breakpoints.length = shape.size + 1 ∧ ascending shape.breakpoints = true := by
  unfold check at h
  dsimp only at h
  split at h
  · cases h
  next nonempty =>
    split at h
    · cases h
    next intercepts =>
      split at h
      · cases h
      next breakpoints =>
        split at h
        · cases h
        · split at h
          · cases h
          next ascends =>
            exact ⟨nonempty, not_not.mp intercepts, not_not.mp breakpoints, by simpa using ascends⟩

theorem length_pieces {α : Type} [Scalar α] {shape : Piecewise α} (h : shape.check = .ok ()) :
    shape.pieces.length = shape.size := by
  obtain ⟨-, intercepts, breakpoints, -⟩ := lengths_of_check h
  simp only [pieces, List.length_map, List.length_zip, List.length_tail, breakpoints, intercepts]
  unfold size
  omega

end Piecewise

section Names

variable {α : Type} [Scalar α]

/-- The fingerprint tells gadgets apart, because the lists of a well-shaped function can be
recovered from the numbers that it is written as. -/
theorem Gadget.eq_of_fingerprint_eq {g g' : Gadget (Polynomial α) α} {context context' : String}
    (shaped : g.WellShaped) (shaped' : g'.WellShaped)
    (h : g.fingerprint context = g'.fingerprint context') : g = g' := by
  have construct := congrArg Fingerprint.construct h
  have operands := congrArg Fingerprint.operands h
  have parameters := congrArg Fingerprint.parameters h
  cases g with
  | piecewise e shape =>
      cases g' with
      | piecewise e' shape' =>
          obtain ⟨-, intercepts, breakpoints, -⟩ := Piecewise.lengths_of_check shaped
          obtain ⟨-, intercepts', breakpoints', -⟩ := Piecewise.lengths_of_check shaped'
          change shape.breakpoints ++ shape.slopes ++ shape.intercepts =
            shape'.breakpoints ++ shape'.slopes ++ shape'.intercepts at parameters
          unfold Piecewise.size at intercepts breakpoints intercepts' breakpoints'
          have lengths := congrArg List.length parameters
          simp only [List.length_append] at lengths
          obtain ⟨rest, last⟩ := List.append_inj' parameters (by omega)
          obtain ⟨first, middle⟩ := List.append_inj rest (by omega)
          obtain rfl := (List.cons.inj operands).1
          obtain ⟨breakpoints, slopes, intercepts⟩ := shape
          simp only at first middle last
          rw [first, middle, last]
      | _ => cases construct
  | _ =>
      simp only [fingerprint] at construct operands
      cases g' <;> first | (cases operands; rfl) | cases construct

end Names

namespace Gadget

/-- Rows that hold enforce the meaning of their gadget. -/
theorem enforced_of_rowsHold {g : Gadget Rat Rat} {M y : Rat} {bs : List Rat}
    (rows : g.RowsHold M y bs) (allowed : g.kind.Allows y) (binary : Binary bs)
    (length : ∀ x shape, g = .piecewise x shape → shape.pieces.length = bs.length) :
    g.Enforced y := by
  cases g with
  | abs x => exact abs_le'.mpr rows
  | max xs => exact rows
  | min xs => exact rows
  | and xs => exact fun operands => (rowsHold_and_iff operands (allowed rfl)).mp rows
  | or xs => exact fun operands => (rowsHold_or_iff operands (allowed rfl)).mp rows
  | ifThenElse c t f =>
      obtain ⟨b, rfl, rfl, rows⟩ := rows
      obtain rfl | rfl := binary b List.mem_cons_self
      · exact .inr ⟨rfl, by linarith [rows.2.2.1, rows.2.2.2]⟩
      · exact .inl ⟨rfl, by linarith [rows.1, rows.2.1]⟩
  | piecewise x shape =>
      obtain ⟨sum, rows⟩ := rows
      obtain ⟨piece, member, on⟩ := Piece.exists_on binary sum (length x shape rfl)
      exact ⟨piece, member, Piece.holds_one_iff.mp (rows _ on)⟩

variable {g : Gadget (Polynomial Rat) Rat} {g' : Gadget Rat Rat} {R : Polynomial Rat → Rat → Prop}

theorem Related.kind_eq (h : g.Related R g') : g'.kind = g.kind := by
  cases h <;> rfl

/-- The variables of a gadget are continuous or binary. -/
theorem kind_ne_integer {spec : String × Variable.Kind} {name : String}
    (member : spec ∈ g.vars name) : spec.2 ≠ .integer := by
  obtain rfl | later := List.mem_cons.mp member
  · cases g <;> exact fun h => nomatch h
  · obtain ⟨companion, -, rfl⟩ := List.mem_map.mp later
    exact fun h => nomatch h

@[simp] theorem length_companions {ω α : Type} {x : ω} {shape : Piecewise α} (name : String) :
    (companions (.piecewise x shape) name).length = shape.size := by
  simp [companions]

end Gadget

namespace Model

variable {m : Model Rat} {v : Assignment Rat} {g : Gadget (Polynomial Rat) Rat}

theorem Feasible.assigns (feasible : m.Feasible v)
    (named : ∀ entry ∈ m.vars.entries, entry.2.name = entry.1) {x : String}
    (registered : m.vars.contains x = true) : v.Assigns x := by
  obtain ⟨entry, member, rfl⟩ := List.mem_map.mp ((m.vars.contains_eq_true_iff x).mp registered)
  obtain ⟨a, assigned, -⟩ := feasible.domains entry.2 (List.mem_map_of_mem member)
  rw [named entry member] at assigned
  simp [Assignment.Assigns, assigned]

/-- The variables of a carried gadget have values that their kinds allow. -/
theorem Carries.allowed {name : String} (carried : m.Carries g name) (feasible : m.Feasible v)
    {spec : String × Variable.Kind} (member : spec ∈ g.vars name) :
    ∃ a, v spec.1 = some a ∧ spec.2.Allows a := by
  obtain ⟨x, defined, stored⟩ := carried.1 spec member
  obtain ⟨x', defined', admits⟩ :=
    Variable.define_auxiliary (Gadget.kind_ne_integer member) spec.1
  obtain rfl : x = x' := Except.ok.inj (defined.symm.trans defined')
  obtain ⟨a, assigned, admitted⟩ := feasible.domains x (List.mem_map_of_mem stored)
  rw [Variable.Options.name_of_define defined] at assigned
  exact ⟨a, assigned, (admits a).mp admitted⟩

/-- On a feasible assignment, the variable of a carried gadget has an enforced value. -/
theorem Carries.enforced {name : String} (carried : m.Carries g name) (shaped : g.WellShaped)
    (feasible : m.Feasible v) :
    ∃ y, v name = some y ∧ ∀ g', g.Related (Polynomial.Means v) g' → g'.Enforced y := by
  obtain ⟨y, value, allowed⟩ := carried.allowed feasible List.mem_cons_self
  refine ⟨y, value, fun g' related => ?_⟩
  have switches : ∀ n ∈ g.companions name, ∃ b, v n = some b ∧ (b = 0 ∨ b = 1) := by
    intro n member
    have switch : (n, .binary) ∈ g.vars name :=
      List.mem_cons_of_mem _ (List.mem_map_of_mem member)
    obtain ⟨b, assigned, allowed⟩ := carried.allowed feasible switch
    exact ⟨b, assigned, allowed rfl⟩
  have all := List.forall₂_same.mpr fun n (_ : n ∈ g.companions name) => rfl (a := n)
  obtain ⟨bs, values, related'⟩ := all.transport
    (S := fun n b => v n = some b) (T := fun n b => b = 0 ∨ b = 1)
    (by rintro n member _ rfl; exact switches n member)
  have binary : Binary bs := fun b member => (related'.exists_left member).elim fun _ h => h.2
  obtain ⟨-, M, rows⟩ := carried
  have hold := (satisfied_rows_iff related value values M).mp fun row member =>
    feasible.rows (row.withLabel name) (rows.subset (List.mem_map_of_mem member))
  refine Gadget.enforced_of_rowsHold hold (related.kind_eq ▸ allowed) binary ?_
  rintro x shape rfl
  cases related with
  | piecewise _ argument =>
      rw [Piecewise.length_pieces shaped, ← values.length_eq, Gadget.length_companions]

variable [Naming Rat]

/-- On a feasible assignment, what the memo records for a gadget has an enforced value. -/
theorem Recorded.enforced (injective : Function.Injective (Naming.auxiliary (α := Rat)))
    (consistent : m.Consistent) (feasible : m.Feasible v) {context : String} {p : Polynomial Rat}
    (recorded : m.Recorded context g p) {g' : Gadget Rat Rat}
    (related : g.Related (Polynomial.Means v) g') : ∃ y, g'.Enforced y ∧ p.Means v y := by
  obtain ⟨shaped, rfl, found⟩ := recorded
  obtain ⟨-, g₀, context₀, shaped₀, name, carried⟩ :=
    consistent.recorded _ (Registry.mem_of_find? found)
  obtain rfl : g = g₀ := Gadget.eq_of_fingerprint_eq shaped shaped₀ (injective name)
  obtain ⟨y, value, enforced⟩ := carried.enforced shaped feasible
  exact ⟨y, enforced g' related, Polynomial.means_var value⟩

end Model

section Linearization

variable [Naming Rat] {m m' : Model Rat} {s : Settings Rat} {e : Expr Rat} {scope : Scope Rat}
variable {r : Polynomial Rat} {v : Assignment Rat}

/-- The result of a linearization has a value on every feasible assignment: one that the expression
has when constructs mean what their rows enforce. -/
theorem exists_value_of_enforced (injective : Function.Injective (Naming.auxiliary (α := Rat)))
    (consistent : m.Consistent) (run : (Model.linearize s e scope).runOn m = (.ok r, m'))
    (feasible : m'.Feasible v) (embeds : e.Every (Expr.Embeds (Polynomial.HasValue v)))
    {C : Construct → Prop} (uses : e.Every (Expr.Uses C)) {M : Gadget Rat Rat → Rat → Prop}
    (meaning : ∀ g y, C g.construct → g.Enforced y → M g y) :
    ∃ y, r.evaluate v = .ok y ∧ e.Denotes (numbers v M) m.families scope y := by
  obtain ⟨trace, denoted⟩ := linearize_denotes consistent run
  obtain ⟨consistent', grows⟩ := trace.consistently consistent
  have supplies : m.families.Supplies (Polynomial.HasValue v) := by
    rw [← grows.families]
    exact supplies_hasValue consistent'.members fun _ => feasible.assigns consistent'.named
  have simulates := simulates_numbers (K := m'.Recorded s.context) (M := M) (C := C)
    (fun _ _ h => h) (fun {g g' p} used related recorded => by
      obtain ⟨y, enforced, means⟩ :=
        Model.Recorded.enforced injective consistent' feasible recorded related
      have same : g'.construct = g.construct := by cases related <;> rfl
      exact ⟨y, meaning g' y (same ▸ used) enforced, means⟩)
  obtain ⟨y, denoted', means⟩ := simulates.denotes supplies embeds uses denoted
  exact ⟨y, means.2, denoted'⟩

/-- Magnitudes, maxima and minima. -/
def Construct.isExtremal : Construct → Bool
  | .abs | .max | .min => true
  | _ => false

/-- An expression without magnitudes, maxima and minima is linearized exactly: on every assignment
that is feasible for the extended model, the result evaluates to a value of the expression. -/
theorem linearize_exact (injective : Function.Injective (Naming.auxiliary (α := Rat)))
    (reachable : m.Reachable) (run : (Model.linearize s e scope).runOn m = (.ok r, m'))
    (exact : e.Every (Expr.Uses fun c => c.isExtremal = false))
    (feasible : m'.isFeasible v 0 = .ok true)
    (embeds : e.Every (Expr.Embeds (Polynomial.HasValue v))) :
    ∃ y, r.evaluate v = .ok y ∧ e.Denotes (numbers v Gadget.Exact) m.families scope y := by
  refine exists_value_of_enforced injective reachable.consistent run
    (Model.isFeasible_iff.mp feasible) embeds exact fun g y other enforced => ?_
  cases g with
  | abs _ | max _ | min _ => cases other
  | _ => exact enforced

end Linearization

/-- A conjunction of two variables is linearized exactly where both are one. -/
theorem conjunction_exact :
    let m : Model Rat := .build .minimize .standard
      [.registerAs "x" .binary, .registerAs "y" .binary]
    let e : Expr Rat := .and [.poly (.var "x"), .poly (.var "y")]
    let v : Assignment Rat := fun _ => some 1
    ∃ r m', (Model.linearize .standard e .empty).runOn m = (.ok r, m') ∧
      m'.isFeasible v 0 = .ok true ∧
      ∃ y, r.evaluate v = .ok y ∧ e.Denotes (numbers v Gadget.Exact) m.families .empty y := by
  intro m e v
  obtain ⟨r, run⟩ : ∃ r, (Model.linearize .standard e .empty).runOn m =
      (.ok r, ((Model.linearize .standard e .empty).runOn m).2) :=
    ⟨_, Prod.ext (by rfl) rfl⟩
  have feasible : ((Model.linearize .standard e .empty).runOn m).2.isFeasible v 0 = .ok true := by
    decide +kernel
  have hasValue (name : String) : (Polynomial.var name).HasValue v :=
    ⟨Polynomial.ordered_var name, Polynomial.over_var rfl⟩
  have exact : e.Every (Expr.Uses fun c => c.isExtremal = false) := by
    simp [e, Expr.Every, Expr.EveryOne, Expr.Uses, Expr.construct?, Construct.isExtremal]
  have embeds : e.Every (Expr.Embeds (Polynomial.HasValue v)) :=
    ⟨trivial, hasValue "x", hasValue "y", trivial⟩
  exact ⟨r, _, run, feasible, linearize_exact Spelling.name_injective
    (Model.reachable_build _ _ _) run exact feasible embeds⟩

end MipModel
