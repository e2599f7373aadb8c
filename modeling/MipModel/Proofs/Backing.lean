import MipModel.Proofs.Identity
import MipModel.Proofs.Soundness

/-!
# What backs the memo

A memo entry promises that a construct has been encoded: later occurrences of the construct are
given the recorded variable, and nothing is encoded for them again. What is promised is spelled out
for every construct: its variable, its switches, and its rows in their order (`Model.Backs`). The
promise is kept in every model that can be reached (`backed_of_reachable`).

Memo, variables and rows are cut back separately when a step fails. That they never come apart
follows from what rolling back restores, which is the model before the step.
-/

namespace MipModel

variable {α : Type} [Scalar α]

/-- A variable is what encodings register under a name: of a given kind, and without bounds unless
it is binary. -/
structure Variable.IsAuxiliary (v : Variable α) (name : String) (kind : Variable.Kind) : Prop where
  name : v.name = name
  kind : v.kind = kind
  unbounded : v.kind ≠ .binary → v.lower = none ∧ v.upper = none

theorem Variable.isAuxiliary_of_define {v : Variable α} {name : String} {kind : Variable.Kind}
    (h : (Model.auxiliaryOptions kind).define name = .ok v) : v.IsAuxiliary name kind := by
  rw [Variable.Options.eq_of_define h]
  refine ⟨rfl, rfl, fun other => ?_⟩
  cases kind with
  | binary => exact absurd rfl other
  | continuous | integer => exact ⟨rfl, rfl⟩

namespace Model

def HasAuxiliary (m : Model α) (name : String) (kind : Variable.Kind) : Prop :=
  ∃ v, m.vars.find? name = some v ∧ v.IsAuxiliary name kind

/-- Rows are stored one after another, with a name as their label. -/
def StoresRows (m : Model α) (name : String) (rows : List (Constraint α)) : Prop :=
  (rows.map fun row => row.withLabel name) <:+: m.constraints.values

/-- A model holds, under a name, the variables and the rows that encode a construct over operands:

* a magnitude lies above its operand and above the operand's negation;
* a maximum lies above, a minimum below every operand;
* a conjunction lies below every operand, and above their sum less all but one;
* a disjunction lies above every operand, and below their sum;
* a case distinction has a switch, equal to the condition. While it is on, the value is that of the
  first branch, and while it is off, that of the second;
* a piecewise function has a switch for every segment, and the switches add up to one. While the
  switch of a segment is on, the value lies on the segment and the argument between its ends. -/
inductive Backs (m : Model α) (name : String) : Fingerprint α → Prop
  | abs {context : String} {e : Polynomial α} (value : m.HasAuxiliary name .continuous)
      (rows : m.StoresRows name
        [.compare (.var name) .ge e,
         .compare (.var name) .ge e.negate]) :
      Backs m name ⟨.abs, context, [e], []⟩
  | max {context : String} {es : List (Polynomial α)} (value : m.HasAuxiliary name .continuous)
      (rows : m.StoresRows name (es.map fun e => .compare (.var name) .ge e)) :
      Backs m name ⟨.max, context, es, []⟩
  | min {context : String} {es : List (Polynomial α)} (value : m.HasAuxiliary name .continuous)
      (rows : m.StoresRows name (es.map fun e => .compare (.var name) .le e)) :
      Backs m name ⟨.min, context, es, []⟩
  | and {context : String} {es : List (Polynomial α)} (value : m.HasAuxiliary name .binary)
      (rows : m.StoresRows name
        ((es.map fun e => .compare (.var name) .le e) ++
          [.compare (.var name) .ge
            ((Polynomial.sum es).subtract (.constant (Scalar.ofInt es.length - 1)))])) :
      Backs m name ⟨.and, context, es, []⟩
  | or {context : String} {es : List (Polynomial α)} (value : m.HasAuxiliary name .binary)
      (rows : m.StoresRows name
        ((es.map fun e => .compare (.var name) .ge e) ++
          [.compare (.var name) .le (Polynomial.sum es)])) :
      Backs m name ⟨.or, context, es, []⟩
  | ifThenElse {context : String} {c t f : Polynomial α} (bigM : α)
      (value : m.HasAuxiliary name .continuous) (switch : m.HasAuxiliary (name ++ "_c") .binary)
      (rows :
        let s : Polynomial α := .var (name ++ "_c")
        let off := ((Polynomial.constant 1).subtract s).scale bigM
        m.StoresRows name
          [.compare s .eq c,
           .compare (.var name) .le (t.add off),
           .compare (.var name) .ge (t.subtract off),
           .compare (.var name) .le (f.add (s.scale bigM)),
           .compare (.var name) .ge (f.subtract (s.scale bigM))]) :
      Backs m name ⟨.ifThenElse, context, [c, t, f], []⟩
  | piecewise {context : String} {e : Polynomial α} {shape : Piecewise α} (bigM : α)
      (shaped : shape.check = .ok ()) (value : m.HasAuxiliary name .continuous)
      (switches : ∀ i < shape.slopes.length, m.HasAuxiliary (name ++ "_s" ++ toString i) .binary)
      (rows :
        let s (i : Nat) : Polynomial α := .var (name ++ "_s" ++ toString i)
        let off (i : Nat) := ((Polynomial.constant 1).subtract (s i)).scale bigM
        let segment (piece : Piece α) := (e.scale piece.slope).add (.constant piece.intercept)
        m.StoresRows name
          (.compare (Polynomial.sum ((List.range shape.slopes.length).map s)) .eq (.constant 1) ::
            shape.pieces.zipIdx.flatMap fun piece =>
              [.compare (.var name) .le ((segment piece.1).add (off piece.2)),
               .compare (.var name) .ge ((segment piece.1).subtract (off piece.2)),
               .compare e .ge ((Polynomial.constant piece.1.start).subtract (off piece.2)),
               .compare e .le ((Polynomial.constant piece.1.stop).add (off piece.2))])) :
      Backs m name
        ⟨.piecewise, context, [e], shape.breakpoints ++ shape.slopes ++ shape.intercepts⟩

end Model

/-- The switches of a piecewise function stand beside its segments in order. -/
theorem Gadget.rows_piecewise {e : Polynomial α} {shape : Piecewise α}
    (shaped : shape.check = .ok ()) (name : String) (bigM : α) :
    (Gadget.piecewise e shape).rows name bigM =
      .compare (Polynomial.sum ((List.range shape.size).map fun i =>
          .var (name ++ "_s" ++ toString i))) .eq (.constant 1) ::
        shape.pieces.zipIdx.flatMap fun piece =>
          pieceRows (.var name) e (.var (name ++ "_s" ++ toString piece.2)) bigM piece.1 := by
  have beside : ((List.range shape.size).map fun i =>
        (Polynomial.var (name ++ "_s" ++ toString i) : Polynomial α)).zip shape.pieces =
      shape.pieces.zipIdx.map fun piece =>
        (.var (name ++ "_s" ++ toString piece.2), piece.1) := by
    rw [List.zipIdx_eq_zip_range', Piecewise.length_pieces shaped, ← List.range_eq_range',
      List.zip_map_left, ← List.zip_swap, List.map_map]
    rfl
  rw [rows, companions, List.map_map]
  refine congrArg _ ?_
  rw [Function.comp_def, beside, List.flatMap_map]

namespace Model

variable {m : Model α} {name : String}

/-- What is carried for a gadget is what has to back its name. -/
theorem backs_of_carries (distinct : m.Distinct) {g : Gadget (Polynomial α) α} (context : String)
    (shaped : g.WellShaped) (carried : m.Carries g name) :
    m.Backs name (g.fingerprint context) := by
  obtain ⟨vars, bigM, rows⟩ := carried
  have registered : ∀ spec ∈ g.vars name, m.HasAuxiliary spec.1 spec.2 := by
    intro spec member
    obtain ⟨v, defined, stored⟩ := vars spec member
    exact ⟨v, Registry.find?_of_mem distinct.vars stored, Variable.isAuxiliary_of_define defined⟩
  have value : m.HasAuxiliary name g.kind := registered _ List.mem_cons_self
  have switches : ∀ switch ∈ g.companions name, m.HasAuxiliary switch .binary :=
    fun switch member =>
      registered (switch, .binary) (List.mem_cons_of_mem _ (List.mem_map_of_mem member))
  clear vars registered
  cases g with
  | abs e => exact .abs value rows
  | max es => exact .max value rows
  | min es => exact .min value rows
  | and es => exact .and value rows
  | or es => exact .or value rows
  | ifThenElse c t f => exact .ifThenElse bigM value (switches _ List.mem_cons_self) rows
  | piecewise e shape =>
      refine .piecewise bigM shaped value (fun i below => switches _ ?_) ?_
      · exact List.mem_map_of_mem (List.mem_range.mpr below)
      · rw [Gadget.rows_piecewise shaped] at rows
        exact rows

end Model

variable [Naming α] {m : Model α}

/-- Every memo entry is the variable of its own name. The name is that of a construct over operands
in a context, and the variables and rows that encode this construct are in the model. -/
theorem backed_of_reachable (reachable : m.Reachable) {name : String} {p : Polynomial α}
    (recorded : (name, p) ∈ m.memo.entries) :
    p = .var name ∧ ∃ f : Fingerprint α, name = Naming.auxiliary f ∧ m.Backs name f := by
  obtain ⟨same, g, context, shaped, named, carried⟩ := reachable.consistent.recorded _ recorded
  exact ⟨same, g.fingerprint context, named,
    Model.backs_of_carries reachable.distinct context shaped carried⟩

/-- A choice and a function of two segments have been encoded, and then a step has failed that had
encoded a magnitude. The memo holds the choice and the function, each with its switches and all of
its rows. -/
theorem choice_and_segments_backed :
    let x : Polynomial Rat := .var "x"
    let choice : Expr Rat := .ifThenElse (.poly x) (.const 2) (.const 3)
    let tent : Piecewise Rat := ⟨[0, 1, 3], [1, -1], [0, 2]⟩
    let failing : Expr Rat := .add (.abs (.poly x)) (.div (.const 1) (.const 0))
    let m : Model Rat := .build .minimize .standard [.registerAs "x" .binary,
      .addToObjective choice .empty, .addToObjective (.piecewise (.poly x) tent) .empty,
      .constrain failing .le (.poly x) .empty none]
    let a := Naming.auxiliary
      (⟨.ifThenElse, "obj", [x, .constant 2, .constant 3], []⟩ : Fingerprint Rat)
    let b := Naming.auxiliary (⟨.piecewise, "obj", [x], [0, 1, 3, 1, -1, 0, 2]⟩ : Fingerprint Rat)
    m.memo.entries = [(a, .var a), (b, .var b)] ∧
    (m.HasAuxiliary a .continuous ∧ m.HasAuxiliary (a ++ "_c") .binary ∧ ∃ bigM,
      let s : Polynomial Rat := .var (a ++ "_c")
      let off := ((Polynomial.constant 1).subtract s).scale bigM
      m.StoresRows a
        [.compare s .eq x,
         .compare (.var a) .le ((Polynomial.constant 2).add off),
         .compare (.var a) .ge ((Polynomial.constant 2).subtract off),
         .compare (.var a) .le ((Polynomial.constant 3).add (s.scale bigM)),
         .compare (.var a) .ge ((Polynomial.constant 3).subtract (s.scale bigM))]) ∧
    m.HasAuxiliary b .continuous ∧ m.HasAuxiliary (b ++ "_s0") .binary ∧
      m.HasAuxiliary (b ++ "_s1") .binary ∧ ∃ bigM,
      let s : Polynomial Rat := .var (b ++ "_s0")
      let t : Polynomial Rat := .var (b ++ "_s1")
      let rising := (x.scale 1).add (.constant 0)
      let falling := (x.scale (-1)).add (.constant 2)
      let offS := ((Polynomial.constant 1).subtract s).scale bigM
      let offT := ((Polynomial.constant 1).subtract t).scale bigM
      m.StoresRows b
        [.compare (Polynomial.sum [s, t]) .eq (.constant 1),
         .compare (.var b) .le (rising.add offS),
         .compare (.var b) .ge (rising.subtract offS),
         .compare x .ge ((Polynomial.constant 0).subtract offS),
         .compare x .le ((Polynomial.constant 1).add offS),
         .compare (.var b) .le (falling.add offT),
         .compare (.var b) .ge (falling.subtract offT),
         .compare x .ge ((Polynomial.constant 1).subtract offT),
         .compare x .le ((Polynomial.constant 3).add offT)] := by
  intro x choice tent failing m a b
  have reachable : m.Reachable := Model.reachable_build _ _ _
  have entries : m.memo.entries = [(a, .var a), (b, .var b)] := by decide +kernel
  clear_value m
  have first : (a, .var a) ∈ m.memo.entries := by simp [entries]
  have second : (b, .var b) ∈ m.memo.entries := by simp [entries]
  refine ⟨entries, ?_, ?_⟩
  · obtain ⟨-, f, named, backs⟩ := backed_of_reachable reachable first
    obtain rfl := Spelling.name_injective named
    cases backs with
    | ifThenElse bigM value switch rows => exact ⟨value, switch, bigM, rows⟩
  · obtain ⟨-, f, named, backs⟩ := backed_of_reachable reachable second
    have same := Spelling.name_injective named
    clear_value b
    have zero : b ++ "_s" ++ toString 0 = b ++ "_s0" := String.append_assoc
    have one : b ++ "_s" ++ toString 1 = b ++ "_s1" := String.append_assoc
    have checked : tent.check = .ok () := by decide +kernel
    cases backs with
    | @piecewise context e shape bigM shaped value switches rows =>
        have recorded : Gadget.piecewise x tent = .piecewise e shape :=
          Gadget.eq_of_fingerprint_eq checked shaped same
        cases recorded
        rw [← zero, ← one]
        exact ⟨value, switches 0 (by decide), switches 1 (by decide), bigM, rows⟩
    | _ => cases same

end MipModel
