import MipModel.Proofs.Consistency
import MipModel.Proofs.Interpretation
import MipModel.Proofs.Walk

/-!
# Linearization as compilation

Successful linearization is described by two things that no longer mention building steps. The
result is what the expression denotes when every construct is read as the variable that the memo
records for its gadget (`linearize_denotes`). And the model at the end comes from the one at the
start by a sequence of encodings, each of the gadget of some part of the expression, put together
from what was recorded before (`Encodes`).

Memo entries stay, so a reading at an early point of the sequence is one at every later point.
-/

namespace MipModel

open Model Build

variable {α : Type} [Scalar α]

/-- The reading of expressions by polynomials, given what stands for a gadget. -/
def polynomials (K : Gadget (Polynomial α) α → Polynomial α → Prop) :
    Interpretation α (Polynomial α) where
  constant := .constant
  polynomial p q := q = p
  zero := .zero
  add := .add
  sub := .subtract
  mul := .multiply
  neg := .negate
  div p q r := p.divide q = .ok r
  construct := K

section Reading

variable {K K' : Gadget (Polynomial α) α → Polynomial α → Prop} {families : Families α}

omit [Scalar α] in
theorem Gadget.eq_of_related_eq {τ : Type} {g g' : Gadget τ α} (h : g.Related Eq g') : g = g' := by
  cases h <;> simp_all

theorem simulates_polynomials (h : ∀ g p, K g p → K' g p) :
    Simulates Eq (fun _ => True) (fun _ => True) (polynomials K) (polynomials K') where
  constant _ := rfl
  polynomial _ same := ⟨_, same, rfl⟩
  zero := rfl
  add := by rintro _ _ _ _ rfl rfl; rfl
  sub := by rintro _ _ _ _ rfl rfl; rfl
  mul := by rintro _ _ _ _ rfl rfl; rfl
  neg := by rintro _ _ rfl; rfl
  div := by rintro _ _ _ _ _ rfl rfl quotient; exact ⟨_, quotient, rfl⟩
  construct := by
    rintro g g' p - related stands
    obtain rfl := Gadget.eq_of_related_eq related
    exact ⟨p, h g p stands, rfl⟩

/-- A reading remains one when more gadgets are stood for. -/
theorem Expr.Denotes.mono {e : Expr α} {scope : Scope α} {p : Polynomial α}
    (h : e.Denotes (polynomials K) families scope p) (more : ∀ g p, K g p → K' g p) :
    e.Denotes (polynomials K') families scope p := by
  obtain ⟨q, denoted, rfl⟩ := (simulates_polynomials more).denotes_of_any
    (Expr.every_of_forall (fun _ _ _ => trivial) e) h
  exact denoted

theorem Expr.Node.mono {e : Expr α} {scope : Scope α} {g : Gadget (Polynomial α) α}
    (h : e.Node (polynomials K) families scope g) (more : ∀ g p, K g p → K' g p) :
    e.Node (polynomials K') families scope g := by
  obtain ⟨g', node, related⟩ := (simulates_polynomials more).node
    (fun _ _ _ => ⟨fun _ _ => trivial, fun _ _ _ _ => trivial⟩)
    (fun o _ p denoted => ⟨p, denoted.mono more, rfl⟩) h
  obtain rfl := Gadget.eq_of_related_eq related
  exact node

end Reading

/-- Direct evaluation is a reading that no construct takes part in. -/
theorem Expr.evaluate_eq_ok_iff {families : Families α} {e : Expr α} {scope : Scope α}
    {p : Polynomial α} : e.evaluate families scope = .ok p ↔
      e.Denotes (polynomials fun _ _ => False) families scope p := by
  induction e using Expr.operandInduction generalizing scope p with
  | leaf e leaf =>
      cases e with
      | const c | poly q => exact pure_eq_ok_iff
      | var family indices =>
          simp only [Expr.evaluate, Expr.Denotes, polynomials, exists_eq_right']
      | param name indices =>
          simp only [Expr.evaluate, Expr.Denotes, Expr.constantIn, bind_eq_ok_iff, pure_eq_ok_iff]
          constructor
          · rintro ⟨pattern, h, c, h', same⟩
            exact ⟨c, ⟨pattern, h, h'⟩, same⟩
          · rintro ⟨c, ⟨pattern, h, h'⟩, same⟩
            exact ⟨pattern, h, c, h', same⟩
      | symbol name =>
          simp only [Expr.evaluate, Expr.Denotes, bind_eq_ok_iff, pure_eq_ok_iff]
          rfl
      | _ => cases leaf
  | sum body generators ih =>
      simp only [Expr.evaluate, Expr.Denotes, bind_eq_ok_iff, foldlM_eq_mapM, mapM_eq_ok_iff,
        mapError_eq_ok_iff, pure_eq_ok_iff, ih, exists_and_left]
      rfl
  | add a b iha ihb | sub a b iha ihb | mul a b iha ihb =>
      simp only [Expr.evaluate, Expr.Denotes, bind_eq_ok_iff, pure_eq_ok_iff, iha, ihb,
        exists_and_left]
      rfl
  | div a b iha ihb =>
      simp only [Expr.evaluate, Expr.Denotes, bind_eq_ok_iff, iha, ihb, exists_and_left]
      rfl
  | neg a ih =>
      simp only [Expr.evaluate, Expr.Denotes, bind_eq_ok_iff, pure_eq_ok_iff, ih]
      rfl
  | construct e construct ih =>
      rw [Expr.denotes_iff_node construct, Expr.evaluate_construct construct]
      refine iff_of_false (fun evaluated => ?_) ?_
      · cases evaluated
      · rintro ⟨_, _, stands⟩
        exact stands

section Trace

variable [Naming α]

/-- The name of the variable that stands for a gadget in a part of the model. -/
def Gadget.nameIn (context : String) (g : Gadget (Polynomial α) α) : String :=
  Naming.auxiliary (g.fingerprint context)

/-- The memo records what stands for a gadget. -/
def Model.Recorded (m : Model α) (context : String) (g : Gadget (Polynomial α) α)
    (p : Polynomial α) : Prop :=
  g.WellShaped ∧ p = .var (g.nameIn context) ∧ m.memo.find? (g.nameIn context) = some p

theorem Model.Recorded.mono {m m' : Model α} {context : String} {g : Gadget (Polynomial α) α}
    {p : Polynomial α} (h : m.Recorded context g p) (later : m.Extends m') :
    m'.Recorded context g p :=
  ⟨h.1, h.2.1, later.memo_find? h.2.2⟩

/-- One model comes from another one by encoding the gadget of some part of an expression, over
what the memo has recorded so far. -/
def Encodes (s : Settings α) (root : Expr α) (scope : Scope α) (families : Families α)
    (m m' : Model α) : Prop :=
  ∃ e inner g added rows, root.Occurs scope e inner ∧
    e.Node (polynomials (m.Recorded s.context)) families inner g ∧ g.WellShaped ∧
    EncodedBy s g (g.nameIn s.context) m m' added rows

/-- A sequence of such encodings. -/
abbrev Trace (s : Settings α) (root : Expr α) (scope : Scope α) (families : Families α) :
    Model α → Model α → Prop :=
  Relation.ReflTransGen (Encodes s root scope families)

instance instIsPreorderTrace (s : Settings α) (root : Expr α) (scope : Scope α)
    (families : Families α) : IsPreorder (Model α) (Trace s root scope families) where
  refl _ := .refl
  trans _ _ _ first second := first.trans second

variable {s : Settings α} {root : Expr α} {scope : Scope α} {families : Families α}

/-- Along a trace, models stay consistent and grow. -/
theorem Trace.consistently {m m' : Model α} (h : Trace s root scope families m m') :
    Consistently Grows m m' := by
  induction h with
  | refl => exact refl _
  | tail _ step ih =>
      obtain ⟨e, inner, g, added, rows, -, -, shaped, encoded⟩ := step
      exact trans_of _ ih fun h => ⟨encoded.consistent h shaped rfl, encoded.grows⟩

/-- Installing a gadget records what stands for it, and encodes it if nothing did so far. -/
theorem install_ok {m m' : Model α} {g : Gadget (Polynomial α) α} {p : Polynomial α}
    (h : m.Consistent) (shaped : g.WellShaped) (done : (install s g).runOn m = (.ok p, m')) :
    m'.Recorded s.context g p ∧
      (m' = m ∨ ∃ added rows, EncodedBy s g (g.nameIn s.context) m m' added rows) := by
  cases found : m.memo.find? (g.nameIn s.context) with
  | some q =>
      rw [runOn_install_of_recorded found] at done
      cases done
      obtain ⟨same, -⟩ := h.recorded _ (Registry.mem_of_find? found)
      exact ⟨⟨shaped, same, found⟩, .inl rfl⟩
  | none =>
      have new : m.memo.contains (g.nameIn s.context) = false := by
        simp [Registry.contains, found]
      rw [runOn_install_of_new found] at done
      obtain ⟨e, added, -, failed⟩ | ⟨m₁, added, rows, encoded, done'⟩ :=
        runOn_encode s g h.numbered new
      · rw [Gadget.nameIn] at failed
        rw [failed] at done
        cases done
      · rw [Gadget.nameIn] at done'
        rw [done'] at done
        cases done
        refine ⟨⟨shaped, rfl, ?_⟩, .inr ⟨added, rows, encoded⟩⟩
        rw [encoded.result]
        exact Registry.find?_push_self new _

/-- What was read at some point of a trace can be read at every later point. -/
theorem Expr.Denotes.later {m m' : Model α} {e : Expr α} {inner : Scope α} {p : Polynomial α}
    (h : e.Denotes (polynomials (m.Recorded s.context)) families inner p)
    (consistent : m.Consistent) (trace : Trace s root scope families m m') :
    e.Denotes (polynomials (m'.Recorded s.context)) families inner p :=
  h.mono fun _ _ recorded => recorded.mono (trace.consistently consistent).2.toExtends

/-- Models that the walk over an expression may start from. -/
def Ready (families : Families α) (m : Model α) : Prop := m.Consistent ∧ m.families = families

/-- A step that grows models leads from one such model to another. -/
theorem Ready.of_keeps {β : Type} {step : Build α β} {m m' : Model α} {o : Outcome α β}
    (h : Ready families m) (keeps : Keeps (Consistently Grows) step)
    (run : step.runOn m = (o, m')) : Ready families m' := by
  obtain ⟨consistent, grows⟩ := keeps.of_run run h.1
  exact ⟨consistent, grows.families.trans h.2⟩

theorem Ready.later {m m' : Model α} (h : Ready families m)
    (trace : Trace s root scope families m m') : Ready families m' := by
  obtain ⟨consistent, grows⟩ := trace.consistently h.1
  exact ⟨consistent, grows.families.trans h.2⟩

/-- Linearization of a part goes along a trace and ends with a reading of the part. -/
def Compiles (s : Settings α) (root : Expr α) (scope : Scope α) (families : Families α)
    (e : Expr α) (inner : Scope α) : Prop :=
  ∀ m m' p, Ready families m → (e.linearize s inner).runOn m = (.ok p, m') →
    Trace s root scope families m m' ∧
      e.Denotes (polynomials (m'.Recorded s.context)) families inner p

section Constructs

variable {inner : Scope α} {m m' : Model α}

theorem operandsOf_ok {construct : Construct} {os : List (Expr α)} {ps : List (Polynomial α)}
    (each : ∀ o ∈ os, Compiles s root scope families o inner) (ready : Ready families m)
    (h : (operandsOf construct os inner (Expr.linearizeAll s os inner)).runOn m = (.ok ps, m')) :
    Trace s root scope families m m' ∧
      OperandsDenote (polynomials (m'.Recorded s.context)) families os inner
        (Expr.DenoteAll (polynomials (m'.Recorded s.context)) families os inner) ps := by
  rcases os with _ | ⟨only, _ | ⟨second, rest⟩⟩
  · cases h
  · cases pattern : only.asPattern? with
    | none =>
        simp only [operandsOf, pattern] at h
        cases h
    | some reference =>
        simp only [operandsOf, pattern, runOn_patternOperands_ok, ready.2] at h
        obtain ⟨⟨resolved, nonempty⟩, rfl⟩ := h
        refine ⟨.refl, ?_⟩
        simp only [OperandsDenote, pattern]
        exact ⟨ps, resolved, nonempty, List.forall₂_same.mpr fun p _ => rfl⟩
  · change (Expr.linearizeAll s (only :: second :: rest) inner).runOn m = _ at h
    rw [linearizeAll_eq_mapM] at h
    obtain ⟨trace, denoted⟩ := mapM_ok (P := Ready families) (R := Trace s root scope families)
      (Q := fun m o p => o.Denotes (polynomials (m.Recorded s.context)) families inner p)
      (fun trace ready => ready.later trace)
      (fun ready trace denoted => denoted.later ready.1 trace)
      (fun o member m m' p ready => each o member m m' p ready) ready h
    exact ⟨trace, Expr.denoteAll_iff.mpr denoted⟩

theorem assemble_ok {e : Expr α} {g : Gadget (Polynomial α) α}
    (each : ∀ o ∈ e.operands, Compiles s root scope families o inner) (ready : Ready families m)
    (h : (e.assemble s inner).runOn m = (.ok g, m')) :
    Trace s root scope families m m' ∧
      e.Node (polynomials (m'.Recorded s.context)) families inner g := by
  cases e with
  | abs a =>
      simp only [Expr.assemble, runOn_bind_ok, runOn_pure_ok] at h
      obtain ⟨p, _, h, rfl, rfl⟩ := h
      obtain ⟨trace, denoted⟩ := each a List.mem_cons_self _ _ p ready h
      exact ⟨trace, p, denoted, rfl⟩
  | max os | min os | and os | or os =>
      simp only [Expr.assemble, runOn_bind_ok, runOn_pure_ok] at h
      obtain ⟨ps, _, h, rfl, rfl⟩ := h
      obtain ⟨trace, denoted⟩ := operandsOf_ok each ready h
      exact ⟨trace, ps, denoted, rfl⟩
  | ifThenElse c t f =>
      simp only [Expr.assemble, runOn_bind_ok, runOn_pure_ok] at h
      obtain ⟨p, m₁, hc, q, m₂, ht, r, m₃, hf, rfl, rfl⟩ := h
      obtain ⟨traceC, denotedC⟩ := each c (by simp [Expr.operands]) _ _ p ready hc
      have ready₁ := ready.later traceC
      obtain ⟨traceT, denotedT⟩ := each t (by simp [Expr.operands]) _ _ q ready₁ ht
      have ready₂ := ready₁.later traceT
      obtain ⟨traceF, denotedF⟩ := each f (by simp [Expr.operands]) _ _ r ready₂ hf
      refine ⟨traceC.trans (traceT.trans traceF), p, q, r, ?_, ?_, denotedF, rfl⟩
      · exact denotedC.later ready₁.1 (traceT.trans traceF)
      · exact denotedT.later ready₂.1 traceF
  | piecewise a shape =>
      simp only [Expr.assemble, runOn_bind_ok, runOn_pure_ok, runOn_liftM_ok] at h
      obtain ⟨_, _, ⟨-, rfl⟩, p, _, h, rfl, rfl⟩ := h
      obtain ⟨trace, denoted⟩ := each a List.mem_cons_self _ _ p ready h
      exact ⟨trace, p, denoted, rfl⟩
  | _ => cases h

end Constructs

/-- Every part of an expression compiles. -/
theorem compiles_of_occurs (e : Expr α) :
    ∀ inner, root.Occurs scope e inner → Compiles s root scope families e inner := by
  induction e using Expr.operandInduction with
  | leaf e leaf =>
      intro inner _ m m' p ready h
      have evaluated : (Model.evaluate e inner).runOn m = (.ok p, m') := by
        cases e <;> first | exact h | cases leaf
      obtain ⟨_, _, got, evaluated⟩ := runOn_bind_ok.mp evaluated
      obtain ⟨rfl, rfl⟩ := runOn_get_ok.mp got
      obtain ⟨evaluated, rfl⟩ := runOn_liftM_ok.mp evaluated
      rw [ready.2] at evaluated
      exact ⟨.refl, (Expr.evaluate_eq_ok_iff.mp evaluated).mono fun _ _ none => none.elim⟩
  | sum body generators ih =>
      intro inner occurs m m' p ready h
      rw [Expr.linearize, runOn_bind_ok] at h
      obtain ⟨scopes, _, produced, h⟩ := h
      obtain ⟨expanded, rfl⟩ := runOn_liftM_ok.mp produced
      rw [foldlM_eq_mapM, runOn_bind_ok] at h
      obtain ⟨summands, _, h, result⟩ := h
      obtain ⟨rfl, rfl⟩ := runOn_pure_ok.mp result
      obtain ⟨trace, denoted⟩ := mapM_ok (P := Ready families) (R := Trace s root scope families)
        (Q := fun m i p => body.Denotes (polynomials (m.Recorded s.context)) families i p)
        (fun trace ready => ready.later trace)
        (fun ready trace denoted => denoted.later ready.1 trace)
        (fun i member m m' p ready h =>
          ih i (.body occurs expanded member) m m' p ready (runOn_mapError_ok.mp h)) ready h
      exact ⟨trace, scopes, summands, expanded, denoted, rfl⟩
  | add a b iha ihb | sub a b iha ihb | mul a b iha ihb =>
      intro inner occurs m m' p ready h
      simp only [Expr.linearize, runOn_bind_ok, runOn_pure_ok] at h
      obtain ⟨q, m₁, first, r, _, second, rfl, rfl⟩ := h
      obtain ⟨trace, denoted⟩ :=
        iha inner (.operand occurs (by simp [Expr.operands])) _ _ q ready first
      have ready₁ := ready.later trace
      obtain ⟨trace', denoted'⟩ :=
        ihb inner (.operand occurs (by simp [Expr.operands])) _ _ r ready₁ second
      exact ⟨trace.trans trace', q, r, denoted.later ready₁.1 trace', denoted', rfl⟩
  | div a b iha ihb =>
      intro inner occurs m m' p ready h
      simp only [Expr.linearize, runOn_bind_ok, runOn_liftM_ok] at h
      obtain ⟨q, m₁, first, r, _, second, quotient, rfl⟩ := h
      obtain ⟨trace, denoted⟩ :=
        iha inner (.operand occurs (by simp [Expr.operands])) _ _ q ready first
      have ready₁ := ready.later trace
      obtain ⟨trace', denoted'⟩ :=
        ihb inner (.operand occurs (by simp [Expr.operands])) _ _ r ready₁ second
      exact ⟨trace.trans trace', q, r, denoted.later ready₁.1 trace', denoted', quotient⟩
  | neg a ih =>
      intro inner occurs m m' p ready h
      simp only [Expr.linearize, runOn_bind_ok, runOn_pure_ok] at h
      obtain ⟨q, _, h, rfl, rfl⟩ := h
      obtain ⟨trace, denoted⟩ :=
        ih inner (.operand occurs (by simp [Expr.operands])) _ _ q ready h
      exact ⟨trace, q, denoted, rfl⟩
  | construct e construct ih =>
      intro inner occurs m m' p ready h
      rw [linearize_eq_install s construct, runOn_bind_ok] at h
      obtain ⟨g, m₁, assembled, installed⟩ := h
      have shaped := wellShaped_of_assemble assembled
      obtain ⟨trace, node⟩ :=
        assemble_ok (fun o member => ih o member inner (.operand occurs member)) ready assembled
      have ready₁ := ready.later trace
      obtain ⟨recorded, rfl | ⟨added, rows, encoded⟩⟩ := install_ok ready₁.1 shaped installed
      · exact ⟨trace, (Expr.denotes_iff_node construct).mpr ⟨g, node, recorded⟩⟩
      · have step : Encodes s root scope families m₁ m' :=
          ⟨e, inner, g, added, rows, occurs, node, shaped, encoded⟩
        have later := node.mono fun _ _ recorded => recorded.mono encoded.grows.toExtends
        exact ⟨trace.tail step, (Expr.denotes_iff_node construct).mpr ⟨g, later, recorded⟩⟩

/-- A successful linearization goes along a trace, and its result is a reading of the expression in
which recorded variables stand for constructs. -/
theorem linearize_denotes {m m' : Model α} {e : Expr α} {r : Polynomial α}
    (consistent : m.Consistent) (h : (Model.linearize s e scope).runOn m = (.ok r, m')) :
    Trace s e scope m.families m m' ∧
      e.Denotes (polynomials (m'.Recorded s.context)) m.families scope r := by
  obtain ⟨-, walked⟩ | ⟨-, evaluated⟩ := linearize_cases s e scope
  · rw [walked, runOn_atomically_ok] at h
    exact compiles_of_occurs e scope .root m m' r ⟨consistent, rfl⟩ h
  · rw [evaluated] at h
    obtain ⟨_, _, got, evaluated⟩ := runOn_bind_ok.mp h
    obtain ⟨rfl, rfl⟩ := runOn_get_ok.mp got
    obtain ⟨evaluated, rfl⟩ := runOn_liftM_ok.mp evaluated
    exact ⟨.refl, (Expr.evaluate_eq_ok_iff.mp evaluated).mono fun _ _ none => none.elim⟩

end Trace

end MipModel
