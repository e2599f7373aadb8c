import MipModel.Proofs.Coverage
import MipModel.Proofs.Spelling
import MipModel.Proofs.Truth

/-!
# Completeness of the encodings

Encoding cuts nothing off: an assignment that is feasible before can be continued to the variables
that an encoding adds, with the value of the construct for the variable of its gadget and with
switches that leave in force the rows of one branch or segment. Step by step along a trace this
continues an assignment of a model to one of the extended model, under which the result of a
linearization has the value of the expression.

What is carried along the trace (`Continued`) is that the assignment is feasible for the model
reached so far, assigns exactly its variables, and gives every recorded gadget its value.
-/

namespace MipModel

namespace Gadget

variable {rule : SegmentRule} {M y : Rat}

/-- A proper gadget with operands has a value. -/
theorem exists_selected {g : Gadget Rat Rat} (shaped : g.WellShaped) (proper : g.Proper)
    (nonempty : g.operands ≠ []) (rule : SegmentRule) : ∃ y, g.Selected rule y := by
  cases g with
  | abs x => exact ⟨|x|, rfl⟩
  | max xs => exact exists_greatest nonempty
  | min xs => exact exists_least nonempty
  | and xs | or xs => exact ⟨_, fun _ => rfl⟩
  | ifThenElse c t f =>
      obtain zero | one := proper
      · exact ⟨f, .inr ⟨zero, rfl⟩⟩
      · exact ⟨t, .inl ⟨one, rfl⟩⟩
  | piecewise x shape => exact ⟨_, Piecewise.exists_covers shaped proper, rfl⟩

/-- The value of a proper gadget is one that its variable may take. -/
theorem allows_of_selected {g : Gadget Rat Rat} (proper : g.Proper) (selected : g.Selected rule y) :
    g.kind.Allows y := by
  cases g with
  | and xs =>
      intro _
      have value := selected proper
      split at value
      · exact .inr value
      · exact .inl value
  | or xs =>
      intro _
      have value := selected proper
      split at value
      · exact .inr value
      · exact .inl value
  | _ => exact fun h => nomatch h

/-- There are switches for which the rows of a gadget hold of its value. -/
theorem exists_switches {g : Gadget Rat Rat} (name : String) (shaped : g.WellShaped)
    (proper : g.Proper) (covered : g.Covered rule M) (selected : g.Selected rule y) :
    ∃ bs, bs.length = (g.companions name).length ∧ Binary bs ∧ g.RowsHold M y bs := by
  have noSwitches : Binary [] := fun _ none => absurd none List.not_mem_nil
  have truth := allows_of_selected proper selected
  cases g with
  | abs x =>
      obtain rfl := selected
      exact ⟨[], rfl, noSwitches, le_abs_self x, neg_le_abs x⟩
  | max xs | min xs => exact ⟨[], rfl, noSwitches, selected.2⟩
  | and xs =>
      exact ⟨[], rfl, noSwitches, (rowsHold_and_iff proper (truth rfl)).mpr (selected proper)⟩
  | or xs =>
      exact ⟨[], rfl, noSwitches, (rowsHold_or_iff proper (truth rfl)).mpr (selected proper)⟩
  | ifThenElse c t f =>
      refine ⟨[c], rfl, fun b member => List.mem_singleton.mp member ▸ proper, c, rfl, rfl, ?_⟩
      obtain ⟨lower, upper⟩ := abs_le.mp covered
      obtain ⟨rfl, rfl⟩ | ⟨rfl, rfl⟩ := selected
      · exact ⟨by linarith, by linarith, by linarith, by linarith⟩
      · exact ⟨by linarith, by linarith, by linarith, by linarith⟩
  | piecewise x shape =>
      obtain ⟨exists_covers, rfl⟩ := selected
      obtain ⟨pick, covers⟩ := rule.covers shape x exists_covers
      -- The picked segment is on, all others are off.
      have off (piece : Piece Rat) (h : piece ∈ shape.pieces) :
          piece.Holds M x ((rule.pick shape x).valueAt x) 0 :=
        Piece.holds_zero (covered piece h).1 (covered piece h).2.1 (covered piece h).2.2
      obtain ⟨bs, length, binary, sum, rows⟩ :=
        Piece.exists_switches pick (Piece.holds_one_iff.mpr ⟨covers, rfl⟩) off
      refine ⟨bs, ?_, binary, sum, rows⟩
      rw [length, Piecewise.length_pieces shaped]
      simp [companions]

end Gadget

/-- An assignment can be continued to new variables by any values. -/
theorem Assignment.exists_continuation {names : List String} {bs : List Rat}
    (distinct : names.Nodup) (length : bs.length = names.length) {v : Assignment Rat}
    (new : ∀ n ∈ names, v n = none) :
    ∃ w : Assignment Rat, v.Continues w ∧ (∀ x, w.Assigns x ↔ v.Assigns x ∨ x ∈ names) ∧
      List.Forall₂ (fun n b => w n = some b) names bs := by
  induction names generalizing v bs with
  | nil =>
      obtain rfl := List.length_eq_zero_iff.mp length
      exact ⟨v, fun _ _ h => h, fun x => by simp, .nil⟩
  | cons n names ih =>
      obtain ⟨b, bs, rfl⟩ := List.exists_cons_of_length_eq_add_one length
      obtain ⟨notMem, distinct'⟩ := List.nodup_cons.mp distinct
      have new' : ∀ n' ∈ names, Function.update v n (some b) n' = none := by
        intro n' member
        have different : n' ≠ n := fun same => notMem (same ▸ member)
        rw [Function.update_of_ne different]
        exact new n' (List.mem_cons_of_mem _ member)
      obtain ⟨w, continues, assigns, values⟩ := ih distinct' (Nat.succ.inj length) new'
      refine ⟨w, ?_, ?_, .cons (continues n b (Function.update_self n (some b) v)) values⟩
      · intro x a h
        have different : x ≠ n := by
          rintro rfl
          rw [new x List.mem_cons_self] at h
          cases h
        exact continues x a (by rw [Function.update_of_ne different, h])
      · intro x
        rw [assigns, List.mem_cons]
        by_cases same : x = n
        · subst same
          simp [Assignment.Assigns]
        · simp [Assignment.Assigns, same]

theorem Constraint.Satisfied.mono {c : Constraint Rat} {v w : Assignment Rat}
    (h : c.Satisfied v) (continues : v.Continues w) : c.Satisfied w := by
  obtain ⟨y, evaluated, holds⟩ := Build.bind_eq_ok_iff.mp h
  exact Build.bind_eq_ok_iff.mpr ⟨y, Polynomial.evaluate_mono evaluated continues, holds⟩

/-- Meanings are unique, so a gadget has one gadget of values. -/
theorem Gadget.Related.unique {v : Assignment Rat} {g : Gadget (Polynomial Rat) Rat}
    {g₁ g₂ : Gadget Rat Rat} (h₁ : g.Related (Polynomial.Means v) g₁)
    (h₂ : g.Related (Polynomial.Means v) g₂) : g₁ = g₂ := by
  have lists {ps : List (Polynomial Rat)} {xs ys : List Rat}
      (h : List.Forall₂ (Polynomial.Means v) ps xs)
      (h' : List.Forall₂ (Polynomial.Means v) ps ys) : xs = ys := by
    induction h generalizing ys with
    | nil => exact (List.forall₂_nil_left_iff.mp h').symm
    | cons head _ ih =>
        obtain ⟨y, ys, head', rest', rfl⟩ := List.forall₂_cons_left_iff.mp h'
        rw [head.unique head', ih rest']
  cases h₁ with
  | abs h =>
      cases h₂ with
      | abs h' => rw [h.unique h']
  | max h =>
      cases h₂ with
      | max h' => rw [lists h h']
  | min h =>
      cases h₂ with
      | min h' => rw [lists h h']
  | and h =>
      cases h₂ with
      | and h' => rw [lists h h']
  | or h =>
      cases h₂ with
      | or h' => rw [lists h h']
  | ifThenElse hc ht hf =>
      cases h₂ with
      | ifThenElse hc' ht' hf' => rw [hc.unique hc', ht.unique ht', hf.unique hf']
  | piecewise shape h =>
      cases h₂ with
      | piecewise _ h' => rw [h.unique h']

theorem Gadget.Related.mono {v w : Assignment Rat} {g : Gadget (Polynomial Rat) Rat}
    {g' : Gadget Rat Rat} (h : g.Related (Polynomial.Means v) g') (continues : v.Continues w) :
    g.Related (Polynomial.Means w) g' := by
  have step : ∀ p x, Polynomial.Means v p x → Polynomial.Means w p x :=
    fun _ _ means => means.mono continues
  cases h with
  | abs h => exact .abs (step _ _ h)
  | max h => exact .max (h.imp step)
  | min h => exact .min (h.imp step)
  | and h => exact .and (h.imp step)
  | or h => exact .or (h.imp step)
  | ifThenElse hc ht hf => exact .ifThenElse (step _ _ hc) (step _ _ ht) (step _ _ hf)
  | piecewise shape h => exact .piecewise shape (step _ _ h)

section Steps

variable [Naming Rat] {rule : SegmentRule} {s : Settings Rat} {v : Assignment Rat}

/-- An assignment continues another one to exactly the variables of a model, is feasible for it,
and gives every recorded gadget its value. -/
structure Continued (rule : SegmentRule) (context : String) (v : Assignment Rat) (m : Model Rat)
    (w : Assignment Rat) : Prop where
  consistent : m.Consistent
  continues : v.Continues w
  domain : ∀ x, w.Assigns x ↔ m.vars.contains x = true
  feasible : m.Feasible w
  recorded : ∀ g p, m.Recorded context g p →
    ∃ g' y, g.Related (Polynomial.Means w) g' ∧ g'.Selected rule y ∧ p.Means w y

variable {m m' : Model Rat} {w : Assignment Rat} {g : Gadget (Polynomial Rat) Rat}
variable {g' : Gadget Rat Rat} {name : String} {added : List (String × Variable Rat)}
variable {rows : List (String × Constraint Rat)} {y : Rat}

omit [Naming Rat] in
theorem Model.EncodedBy.names (encoded : EncodedBy s g name m m' added rows) :
    added.map Prod.fst = name :: g.companions name := by
  rw [encoded.vars.names]
  simp [Gadget.vars, Function.comp_def]

/-- Continued by the value of a gadget and by switches for which its rows hold, an assignment is
feasible for the model in which the gadget is encoded. -/
theorem feasible_of_encodedBy (encoded : Model.EncodedBy s g name m m' added rows)
    (continued : Continued rule s.context v m w) {w' : Assignment Rat} (continues : w.Continues w')
    (related : g.Related (Polynomial.Means w') g') {bs : List Rat} (value : w' name = some y)
    (switches : List.Forall₂ (fun n b => w' n = some b) (g.companions name) bs)
    (allowed : g.kind.Allows y) (binary : Binary bs) (hold : g'.RowsHold (g.bigM s m.vars) y bs) :
    m'.Feasible w' := by
  have new : ∀ spec ∈ g.vars name, ∃ a, w' spec.1 = some a ∧ spec.2.Allows a := by
    intro spec member
    obtain rfl | later := List.mem_cons.mp member
    · exact ⟨y, value, allowed⟩
    · obtain ⟨n, companion, rfl⟩ := List.mem_map.mp later
      obtain ⟨b, stored, assigned⟩ := switches.exists_right companion
      exact ⟨b, assigned, fun _ => binary b stored⟩
  rw [encoded.result]
  constructor
  · intro x member
    obtain ⟨entry, stored, rfl⟩ := List.mem_map.mp member
    obtain earlier | later := List.mem_append.mp stored
    · obtain ⟨a, assigned, admitted⟩ :=
        continued.feasible.domains entry.2 (List.mem_map_of_mem earlier)
      exact ⟨a, continues _ a assigned, admitted⟩
    · obtain ⟨spec, asked, same, defined⟩ := encoded.vars.defined.exists_left later
      obtain ⟨x, defined', admits⟩ :=
        Variable.define_auxiliary (Gadget.kind_ne_integer asked) spec.1
      obtain rfl : entry.2 = x := Except.ok.inj (defined.symm.trans defined')
      obtain ⟨a, assigned, allows⟩ := new spec asked
      rw [Variable.Options.name_of_define defined]
      exact ⟨a, assigned, (admits a).mpr allows⟩
  · intro c member
    have member : c ∈ m.constraints.values ++ rows.map Prod.snd := by
      simpa using member
    obtain earlier | later := List.mem_append.mp member
    · exact (continued.feasible.rows c earlier).mono continues
    · rw [encoded.stored] at later
      obtain ⟨row, stored, rfl⟩ := List.mem_map.mp later
      exact (satisfied_rows_iff related value switches _).mpr hold row stored

/-- One encoding continues an assignment by the value of its gadget. -/
theorem Continued.encode (injective : Function.Injective (Naming.auxiliary (α := Rat)))
    (continued : Continued rule s.context v m w) (shaped : g.WellShaped)
    (encoded : Model.EncodedBy s g (g.nameIn s.context) m m' added rows)
    (related : g.Related (Polynomial.Means w) g') (nonempty : g'.operands ≠ [])
    (proper : g'.Proper) (covered : g'.Covered rule (g.bigM s m.vars)) :
    ∃ w', w.Continues w' ∧ Continued rule s.context v m' w' := by
  have shaped' : g'.WellShaped := by cases related <;> exact shaped
  have companions : g'.companions = g.companions := by cases related <;> rfl
  obtain ⟨y, selected⟩ := Gadget.exists_selected shaped' proper nonempty rule
  obtain ⟨bs, length, binary, hold⟩ :=
    Gadget.exists_switches (g.nameIn s.context) shaped' proper covered selected
  rw [companions] at length
  have distinct := encoded.vars.distinct
  rw [encoded.names] at distinct
  have unassigned : ∀ n ∈ g.nameIn s.context :: g.companions (g.nameIn s.context), w n = none := by
    intro n member
    rw [← encoded.names] at member
    obtain ⟨entry, stored, rfl⟩ := List.mem_map.mp member
    have new := encoded.vars.new entry stored
    by_contra assigned
    have : w.Assigns entry.1 := Option.isSome_iff_ne_none.mpr assigned
    rw [continued.domain, new] at this
    cases this
  have oneEach : (y :: bs).length = (g.nameIn s.context :: g.companions _).length :=
    congrArg Nat.succ length
  obtain ⟨w', continues, assigns, values⟩ :=
    Assignment.exists_continuation distinct oneEach unassigned
  obtain ⟨value, switches⟩ := List.forall₂_cons.mp values
  have related' := related.mono continues
  refine ⟨w', continues, encoded.consistent continued.consistent shaped rfl,
    fun x a h => continues x a (continued.continues x a h), ?_, ?_, ?_⟩
  · intro x
    rw [assigns, continued.domain, ← encoded.names, Registry.contains_eq_true_iff,
      Registry.contains_eq_true_iff, encoded.result]
    simp
  · exact feasible_of_encodedBy encoded continued continues related' value switches
      (related.kind_eq ▸ Gadget.allows_of_selected proper selected) binary hold
  · rintro g₁ p ⟨shaped₁, rfl, found⟩
    by_cases same : g₁.nameIn s.context = g.nameIn s.context
    · obtain rfl := Gadget.eq_of_fingerprint_eq shaped₁ shaped (injective same)
      exact ⟨g', y, related', selected, Polynomial.means_var value⟩
    · rw [encoded.result] at found
      have earlier : m.memo.find? (g₁.nameIn s.context) = some (.var (g₁.nameIn s.context)) :=
        (Registry.find?_push_of_ne same _).symm.trans found
      obtain ⟨g₁', y₁, related₁, selected₁, means⟩ :=
        continued.recorded g₁ _ ⟨shaped₁, rfl, earlier⟩
      exact ⟨g₁', y₁, related₁.mono continues, selected₁, means.mono continues⟩

variable {e : Expr Rat} {scope : Scope Rat} {families : Families Rat}

/-- The assumptions under which no encoding of a part of an expression cuts off an assignment: its
operands are proper, and a constant of the settings, if it is used, covers. -/
def Admissible (rule : SegmentRule) (s : Settings Rat) (vars : Registry (Variable Rat))
    (v : Assignment Rat) (families : Families Rat) (root : Expr Rat) (scope : Scope Rat) : Prop :=
  ∀ e inner g g', root.Occurs scope e inner →
    e.Node (polynomials fun g p => p = .var (g.nameIn s.context)) families inner g →
    e.Node (numbers v (Gadget.Selected rule)) families inner g' →
      g'.Proper ∧ (g.FallsBack s vars → g'.Covered rule s.bigM)

/-- While an assignment is continued, a reading by polynomials is carried over to numbers. -/
theorem Continued.simulates {context : String} (continued : Continued rule context v m w) :
    Simulates (Polynomial.Means w) (Polynomial.HasValue v) (fun _ => True)
      (polynomials (m.Recorded context)) (numbers v (Gadget.Selected rule)) :=
  simulates_numbers continued.continues fun _ related recorded => by
    obtain ⟨g'', y, related', selected, means⟩ := continued.recorded _ _ recorded
    obtain rfl := related.unique related'
    exact ⟨y, selected, means⟩

omit [Naming Rat] in
/-- Whether a constant falls back does not change when further variables are registered. -/
theorem Gadget.fallsBack_of_prefix {vars vars' : Registry (Variable Rat)}
    (later : vars.entries <+: vars'.entries)
    (registered : ∀ x, w.Assigns x → vars.contains x = true)
    (related : g.Related (Polynomial.Means w) g') (h : g.FallsBack s vars) :
    g.FallsBack s vars' := by
  have known {p : Polynomial Rat} {x : Rat} (means : p.Means w x) :
      p.Over fun x => vars.contains x = true :=
    means.hasValue.2.mono registered
  cases related with
  | ifThenElse _ means means' =>
      exact h.imp_right fun none =>
        (Enclosure.ofPolynomial?_of_prefix later (known (means.subtract means'))).trans none
  | piecewise shape means =>
      exact h.imp_right fun none =>
        (Enclosure.ofPolynomial?_of_prefix later (known means)).trans none
  | _ => trivial

/-- Along a trace an admissible assignment is continued to the variables of every model. -/
theorem Continued.along (injective : Function.Injective (Naming.auxiliary (α := Rat)))
    (start : Continued rule s.context v m v) (trace : Trace s e scope families m m')
    {vars : Registry (Variable Rat)} (later : m'.vars.entries <+: vars.entries)
    (supplies : families.Supplies (Polynomial.HasValue v))
    (embeds : e.Every (Expr.Embeds (Polynomial.HasValue v)))
    (admissible : Admissible rule s vars v families e scope) :
    ∃ w, Continued rule s.context v m' w := by
  have uses : e.Every (Expr.Uses fun _ => True) := Expr.every_of_forall (fun _ _ _ => trivial) e
  induction trace with
  | refl => exact ⟨v, start⟩
  | @tail m₁ m₂ _ step ih =>
      obtain ⟨part, inner, g, added, rows, occurs, node, shaped, encoded⟩ := step
      have before := encoded.grows.vars.trans later
      obtain ⟨w, continued⟩ := ih before
      obtain ⟨g', node', related⟩ := continued.simulates.node supplies
        (fun o member x denoted => continued.simulates.denotes supplies
          ((embeds.of_occurs occurs).operand member) ((uses.of_occurs occurs).operand member)
          denoted) node
      obtain ⟨proper, falls⟩ := admissible part inner g g' occurs
        (node.mono fun _ _ recorded => recorded.2.1) node'
      have covered : g'.Covered rule (g.bigM s m₁.vars) := by
        by_cases fallsBack : g.FallsBack s m₁.vars
        · rw [Gadget.bigM_of_fallsBack fallsBack]
          exact falls (Gadget.fallsBack_of_prefix before
            (fun x => (continued.domain x).mp) related fallsBack)
        · exact Gadget.covered_of_derived fallsBack shaped
            (Enclosure.respects_of_feasible continued.feasible continued.consistent.named)
            related proper rule
      obtain ⟨w', -, continued'⟩ := continued.encode injective shaped encoded related
        node'.operands_ne_nil proper covered
      exact ⟨w', continued'⟩

variable {r : Polynomial Rat}

/-- Linearization cuts nothing off. In a model without auxiliaries so far, let an assignment of
exactly its variables be feasible, and admissible for an expression over these variables. Then it
has a continuation that is feasible for the extended model, and under which the result evaluates to
the value of the expression, whichever rule chooses among the segments of piecewise functions. -/
theorem linearize_complete (injective : Function.Injective (Naming.auxiliary (α := Rat)))
    (reachable : m.Reachable) (fresh : m.memo = ∅)
    (run : (Model.linearize s e scope).runOn m = (.ok r, m'))
    (registered : e.Every (Expr.Embeds fun p =>
      p.Ordered ∧ p.Over fun x => m.vars.contains x = true))
    (domain : ∀ x, v.Assigns x ↔ m.vars.contains x = true)
    (feasible : m.isFeasible v 0 = .ok true)
    (admissible : Admissible rule s m'.vars v m.families e scope) :
    ∃ w y, v.Continues w ∧ (∀ x, w.Assigns x ↔ m'.vars.contains x = true) ∧
      m'.isFeasible w 0 = .ok true ∧ r.evaluate w = .ok y ∧
      e.Denotes (numbers v (Gadget.Selected rule)) m.families scope y := by
  have consistent := reachable.consistent
  obtain ⟨trace, denoted⟩ := linearize_denotes consistent run
  have supplies : m.families.Supplies (Polynomial.HasValue v) :=
    supplies_hasValue consistent.members fun x => (domain x).mpr
  have embeds : e.Every (Expr.Embeds (Polynomial.HasValue v)) :=
    registered.imp fun _ embedded => embedded.imp fun _ h =>
      ⟨h.1, h.2.mono fun x => (domain x).mpr⟩
  have start : Continued rule s.context v m v := {
    consistent
    continues := fun _ _ h => h
    domain
    feasible := Model.isFeasible_iff.mp feasible
    recorded := by
      rintro g p ⟨-, -, found⟩
      rw [fresh] at found
      cases found }
  obtain ⟨w, continued⟩ :=
    start.along injective trace List.prefix_rfl supplies embeds admissible
  have uses : e.Every (Expr.Uses fun _ => True) := Expr.every_of_forall (fun _ _ _ => trivial) e
  obtain ⟨y, value, means⟩ := continued.simulates.denotes supplies embeds uses denoted
  exact ⟨w, y, continued.continues, continued.domain,
    Model.isFeasible_iff.mpr continued.feasible, means.2, value⟩

end Steps

/-- Where the condition is one, the assignment is continued by the first of two values. -/
theorem choice_completed :
    let m : Model Rat := .build .minimize .standard
      [.registerAs "x" .binary, .registerAs "y" .binary]
    let e : Expr Rat := .ifThenElse (.poly (.var "x")) (.poly (.var "y")) (.const 3)
    let v : Assignment Rat := fun name =>
      if name = "x" then some 1 else if name = "y" then some 0 else none
    ∃ r m', (Model.linearize .standard e .empty).runOn m = (.ok r, m') ∧
      ∃ w y, v.Continues w ∧ (∀ x, w.Assigns x ↔ m'.vars.contains x = true) ∧
        m'.isFeasible w 0 = .ok true ∧ r.evaluate w = .ok y ∧
        e.Denotes (numbers v (Gadget.Selected .first)) m.families .empty y := by
  intro m e v
  obtain ⟨r, m', run⟩ : ∃ r m', (Model.linearize .standard e .empty).runOn m = (.ok r, m') :=
    Build.exists_of_isOk (by decide +kernel)
  have domain (x : String) : v.Assigns x ↔ m.vars.contains x = true := by
    rw [Registry.contains_eq_true_iff]
    show v.Assigns x ↔ x ∈ ["x", "y"]
    simp only [Assignment.Assigns, v]
    grind
  have feasible : m.isFeasible v 0 = .ok true := by decide +kernel
  have registered (name : String) (h : m.vars.contains name = true) :
      (Polynomial.var name : Polynomial Rat).Ordered ∧
        (Polynomial.var name : Polynomial Rat).Over fun x => m.vars.contains x = true :=
    ⟨Polynomial.ordered_var name, Polynomial.over_var h⟩
  have value {name : String} {c a : Rat} (assigned : v name = some a)
      (h : (Polynomial.var name).evaluate v = .ok c) : c = a :=
    Except.ok.inj (h.symm.trans (Polynomial.means_var assigned).2)
  have parts : e.Every fun part => ∀ inner g',
      part.Node (numbers v (Gadget.Selected .first)) m.families inner g' →
        g'.Proper ∧ g'.Covered .first (Settings.standard : Settings Rat).bigM := by
    refine ⟨?_, fun _ _ h => h.elim, fun _ _ h => h.elim, fun _ _ h => h.elim⟩
    rintro inner g' ⟨c, t, f, one, zero, three, rfl⟩
    obtain rfl := value (by rfl) one
    obtain rfl := value (by rfl) zero
    obtain rfl : f = 3 := three
    exact ⟨.inr rfl, (by decide +kernel : |(0 : Rat) - 3| ≤ 1000000)⟩
  have admissible : Admissible .first .standard m'.vars v m.families e .empty :=
    fun part inner g g' occurs _ node =>
      ((parts.of_occurs occurs).self inner g' node).imp_right fun covered _ => covered
  exact ⟨r, m', run, linearize_complete Spelling.name_injective (Model.reachable_build _ _ _) rfl
    run ⟨trivial, registered "x" rfl, registered "y" rfl, trivial⟩ domain feasible admissible⟩
end MipModel
