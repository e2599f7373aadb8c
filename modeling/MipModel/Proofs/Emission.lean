import MipModel.Proofs.Backing
import MipModel.Proofs.Soundness

/-!
# What linearization adds

A construct has a price in variables and rows that depends on its kind and on the number of its
operands or segments (`Gadget.cost`), but neither on what the operands are nor on where it stands.
Linearization pays the price once for each name that is new to the memo, and adds nothing else
(`linearize_emits`).

One encoding adds the variables, the rows and the memo entry of its gadget; a linearization is a
sequence of encodings, so what it adds is what they add, one after another.
-/

namespace MipModel

open Model Build

namespace Gadget

/-- The number of variables and the number of rows that a gadget takes. -/
def cost {ω α : Type} : Gadget ω α → Nat × Nat
  | abs _ => (1, 2)
  | max es | min es => (1, es.length)
  | and es | or es => (1, es.length + 1)
  | ifThenElse .. => (2, 5)
  | piecewise _ shape => (shape.size + 1, 1 + 4 * shape.size)

@[simp] theorem length_vars {ω α : Type} (g : Gadget ω α) (name : String) :
    (g.vars name).length = g.cost.1 := by
  rw [vars, List.length_cons, List.length_map]
  cases g with
  | piecewise x shape => simp [cost]
  | _ => rfl

variable {α : Type} [Scalar α]

theorem length_rows {g : Gadget (Polynomial α) α} (shaped : g.WellShaped) (name : String) (m : α) :
    (g.rows name m).length = g.cost.2 := by
  cases g with
  | piecewise x shape =>
      have segments : (((companions (.piecewise x shape) name).map
          (Polynomial.var : String → Polynomial α)).zip shape.pieces).length = shape.size := by
        simp [Piecewise.length_pieces shaped]
      have each (s : Polynomial α × Piece α) :
          (pieceRows (Polynomial.var name) x s.1 m s.2).length = 4 := rfl
      rw [rows, cost, List.length_cons, List.length_flatMap]
      simp only [each, List.map_const', List.sum_replicate, segments, smul_eq_mul]
      omega
  | _ => simp [rows, cost]

end Gadget

variable {α : Type} [Scalar α] [Naming α]

/-- What one model has more than another one are the variables, the rows and the memo entries of
gadgets, one gadget after another. The rows of a gadget are labelled with its name. -/
structure Model.Emits (context : String) (m m' : Model α)
    (gs : List (Gadget (Polynomial α) α)) : Prop where
  memo : m'.memo.names = m.memo.names ++ gs.map (Gadget.nameIn context)
  vars : ∃ added, m'.vars.entries = m.vars.entries ++ added ∧
    added.length = (gs.map fun g => g.cost.1).sum
  rows : ∃ added, m'.constraints.entries = m.constraints.entries ++ added ∧
    added.map (fun row => row.2.label) =
      gs.flatMap fun g => List.replicate g.cost.2 (some (g.nameIn context))

namespace Model.Emits

variable {context : String} {m n k : Model α} {gs hs : List (Gadget (Polynomial α) α)}

omit [Scalar α] in
theorem refl (m : Model α) : m.Emits context m [] where
  memo := (List.append_nil _).symm
  vars := ⟨[], (List.append_nil _).symm, rfl⟩
  rows := ⟨[], (List.append_nil _).symm, rfl⟩

omit [Scalar α] in
theorem trans (first : m.Emits context n gs) (second : n.Emits context k hs) :
    m.Emits context k (gs ++ hs) where
  memo := by rw [second.memo, first.memo, List.map_append, List.append_assoc]
  vars := by
    obtain ⟨added, vars, length⟩ := first.vars
    obtain ⟨added', vars', length'⟩ := second.vars
    refine ⟨added ++ added', by rw [vars', vars, List.append_assoc], ?_⟩
    rw [List.length_append, length, length', List.map_append, List.sum_append]
  rows := by
    obtain ⟨added, rows, labels⟩ := first.rows
    obtain ⟨added', rows', labels'⟩ := second.rows
    refine ⟨added ++ added', by rw [rows', rows, List.append_assoc], ?_⟩
    rw [List.map_append, labels, labels', List.flatMap_append]

/-- One encoding adds what its gadget takes. -/
theorem of_encodedBy {s : Settings α} {g : Gadget (Polynomial α) α}
    {added : List (String × Variable α)} {rows : List (String × Constraint α)}
    (encoded : EncodedBy s g (g.nameIn context) m n added rows) (shaped : g.WellShaped) :
    m.Emits context n [g] := by
  have names : added.length = g.cost.1 := by
    rw [← Gadget.length_vars g (g.nameIn context), ← encoded.vars.defined.length_eq]
  have labels : rows.map (fun row => row.2.label) =
      List.replicate g.cost.2 (some (g.nameIn context)) := by
    have values := congrArg (List.map Constraint.label) encoded.stored
    rw [List.map_map, List.map_map] at values
    rw [← Gadget.length_rows shaped (g.nameIn context) (g.bigM s m.vars), ← List.map_const']
    exact values
  rw [encoded.result]
  refine ⟨?_, ⟨added, rfl, by simpa using names⟩, ⟨rows, rfl, by simpa using labels⟩⟩
  simp

omit [Scalar α] in
theorem length_rows (h : m.Emits context n gs) : ∃ added,
    n.constraints.entries = m.constraints.entries ++ added ∧
      added.length = (gs.map fun g => g.cost.2).sum ∧
      added.map (fun row => row.2.label) =
        gs.flatMap fun g => List.replicate g.cost.2 (some (g.nameIn context)) := by
  obtain ⟨added, rows, labels⟩ := h.rows
  refine ⟨added, rows, ?_, labels⟩
  have lengths := congrArg List.length labels
  simpa [List.length_flatMap] using lengths

end Model.Emits

section Linearizing

variable {s : Settings α} {e : Expr α} {scope : Scope α} {families : Families α} {m m' : Model α}

/-- The gadget of some part of an expression, over what the memo records. -/
def Model.MadeFor (m : Model α) (s : Settings α) (e : Expr α) (scope : Scope α)
    (families : Families α) (g : Gadget (Polynomial α) α) : Prop :=
  ∃ part inner, e.Occurs scope part inner ∧
    part.Node (polynomials (m.Recorded s.context)) families inner g

/-- A trace adds what its gadgets take. -/
theorem Trace.emits (trace : Trace s e scope families m m') :
    ∃ gs, m.Emits s.context m' gs ∧ ∀ g ∈ gs, m'.MadeFor s e scope families g := by
  induction trace with
  | refl => exact ⟨[], .refl m, fun _ none => absurd none List.not_mem_nil⟩
  | @tail middle last trace step ih =>
      obtain ⟨gs, emitted, made⟩ := ih
      obtain ⟨part, inner, g, added, rows, occurs, node, shaped, encoded⟩ := step
      have later {g : Gadget (Polynomial α) α} (h : middle.MadeFor s e scope families g) :
          last.MadeFor s e scope families g := by
        obtain ⟨part, inner, occurs, node⟩ := h
        exact ⟨part, inner, occurs,
          node.mono fun _ _ recorded => recorded.mono encoded.grows.toExtends⟩
      refine ⟨gs ++ [g], emitted.trans (.of_encodedBy encoded shaped), ?_⟩
      rw [List.forall_mem_append, List.forall_mem_singleton]
      exact ⟨fun g' member => later (made g' member), later ⟨part, inner, occurs, node⟩⟩

/-- A successful linearization adds, for each name that is new to the memo, the variables and the
rows of one construct of the expression, which are as many as its kind takes. The rows carry the
name as their label. Families, objective, direction and settings stay as they were. -/
theorem linearize_emits {r : Polynomial α} (reachable : m.Reachable)
    (done : (Model.linearize s e scope).runOn m = (.ok r, m')) :
    ∃ gs : List (Gadget (Polynomial α) α),
      (gs.map (Gadget.nameIn s.context)).Nodup ∧
      (∀ name, name ∈ gs.map (Gadget.nameIn s.context) ↔
        name ∈ m'.memo.names ∧ name ∉ m.memo.names) ∧
      (∀ g ∈ gs, ∃ part inner, e.Occurs scope part inner ∧
        part.Node (polynomials (m'.Recorded s.context)) m.families inner g) ∧
      (∃ vars, m'.vars.entries = m.vars.entries ++ vars ∧
        vars.length = (gs.map fun g => g.cost.1).sum) ∧
      (∃ rows, m'.constraints.entries = m.constraints.entries ++ rows ∧
        rows.length = (gs.map fun g => g.cost.2).sum ∧
        rows.map (fun row => row.2.label) =
          gs.flatMap fun g => List.replicate g.cost.2 (some (g.nameIn s.context))) ∧
      m'.families = m.families ∧ m'.objective = m.objective ∧ m'.direction = m.direction ∧
      m'.settings = m.settings := by
  have consistent := reachable.consistent
  obtain ⟨trace, -⟩ := linearize_denotes consistent done
  obtain ⟨gs, emitted, made⟩ := trace.emits
  obtain ⟨-, grows⟩ := trace.consistently consistent
  have reachable' : m'.Reachable := by
    have step := reachable.step (.linearize s e scope)
    rwa [Operation.run, runOn_bind, done] at step
  have distinct : (m.memo.names ++ gs.map (Gadget.nameIn s.context)).Nodup :=
    emitted.memo ▸ reachable'.distinct.memo
  obtain ⟨-, nodup, disjoint⟩ := List.nodup_append.mp distinct
  refine ⟨gs, nodup, fun name => ?_, made, emitted.vars, emitted.length_rows, grows.families,
    grows.objective, grows.direction, grows.settings⟩
  rw [emitted.memo, List.mem_append]
  constructor
  · intro new
    exact ⟨.inr new, fun old => disjoint name old name new rfl⟩
  · rintro ⟨either, new⟩
    exact either.resolve_left new

end Linearizing

/-- A choice between a maximum and a multiple of the magnitude that the maximum is of takes three
gadgets, since the magnitude is encoded once. They have four variables and ten rows. -/
theorem choice_emitted :
    let x : Expr Rat := .var "x" []
    let magnitude : Expr Rat := .abs (.sub x (.const 2))
    let e : Expr Rat := .ifThenElse x (.max [magnitude, .const 1, x]) (.add magnitude magnitude)
    let m : Model Rat := .build .minimize .standard [.createVariable "x" .binary]
    ∃ (r : Polynomial Rat) (m' : Model Rat) (gs : List (Gadget (Polynomial Rat) Rat)),
      (Model.linearize .standard e .empty).runOn m = (.ok r, m') ∧ gs.length = 3 ∧
      (gs.map fun g => g.cost.1).sum = 4 ∧ (gs.map fun g => g.cost.2).sum = 10 ∧
      ∀ g ∈ gs, g.nameIn "" ∈ m'.memo.names := by
  intro x magnitude e m
  have run : ((Model.linearize .standard e .empty).runOn m).1.isOk = true ∧
      ((Model.linearize .standard e .empty).runOn m).2.memo.names.Nodup ∧
      ((Model.linearize .standard e .empty).runOn m).2.memo.names.length = 3 ∧
      ((Model.linearize .standard e .empty).runOn m).2.vars.entries.length =
        m.vars.entries.length + 4 ∧
      ((Model.linearize .standard e .empty).runOn m).2.constraints.entries.length =
        m.constraints.entries.length + 10 := by decide +kernel
  obtain ⟨succeeds, sizes⟩ := run
  obtain ⟨r, m', done⟩ := exists_of_isOk succeeds
  rw [done] at sizes
  obtain ⟨distinct, memo, four, ten⟩ := sizes
  obtain ⟨gs, nodup, names, -, ⟨vars, splitVars, lengthVars⟩,
    ⟨rows, splitRows, lengthRows, -⟩, -⟩ := linearize_emits (Model.reachable_build _ _ _) done
  have old : m.memo.names = [] := by decide +kernel
  have same : (gs.map (Gadget.nameIn "")).Perm m'.memo.names :=
    (List.perm_ext_iff_of_nodup nodup distinct).mpr fun name =>
      (names name).trans (and_iff_left (old ▸ List.not_mem_nil))
  rw [splitVars, List.length_append, lengthVars] at four
  rw [splitRows, List.length_append, lengthRows] at ten
  refine ⟨r, m', gs, done, ?_, Nat.add_left_cancel four, Nat.add_left_cancel ten,
    fun g member => ?_⟩
  · rw [← memo, ← same.length_eq, List.length_map]
  · exact same.subset (List.mem_map_of_mem member)

end MipModel
