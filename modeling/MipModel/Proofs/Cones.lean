import Mathlib
import MipModel.Conic.Form
import MipModel.Proofs.Feasibility
import MipModel.Proofs.Insertion
import MipModel.Proofs.Matrices
import MipModel.Proofs.NormalForms
import MipModel.Proofs.Spelling

/-!
# The conic form of a model

The conic form of a model says about a point what the model says about an assignment: the point of
an assignment lies in the cones exactly when the assignment is feasible, and its cost is what is to
be minimized, the constant term apart (`ofModel_faithful`).

The parts of the form are taken one by one. Terms become entries of columns, and a sum over columns
is a sum over terms (`sum_linearEntries`, `form_quadraticEntries`). Constraints and bounds become
rows, and a row says by its slack what the constraint or the bound demands
(`satisfied_iff_demands`, `admits_iff_boundRows`).
-/

namespace MipModel.Conic

open Build Finset

section Readings

/-- What a row leaves between its left and its right side at a point. -/
def Row.slack (x : Nat → Rat) (r : Row Rat) : Rat :=
  r.rhs - (r.coefficients.map fun e => e.2 * x e.1).sum

/-- What a relation demands of the slack of a row that bounds from above. -/
def Demands (relation : Comparison) (slack : Rat) : Prop :=
  if relation = .eq then slack = 0 else 0 ≤ slack

namespace Form

def point (f : Form Rat) (v : Assignment Rat) (j : Nat) : Rat := v.total (f.columns.getD j "")

/-- The slack of a row, `b - A x`. -/
def slack (f : Form Rat) (x : Nat → Rat) (i : Nat) : Rat := f.b.getD i 0 - f.a.apply x i

/-- What is to be minimized, `x P x / 2 + q x`. -/
def cost (f : Form Rat) (x : Nat → Rat) : Rat :=
  f.p.form x / 2 + ∑ j ∈ range f.columns.length, f.q.getD j 0 * x j

structure Feasible (f : Form Rat) (x : Nat → Rat) : Prop where
  zero : ∀ i < f.zeroRows, f.slack x i = 0
  nonnegative : ∀ i, f.zeroRows ≤ i → i < f.zeroRows + f.nonnegativeRows → 0 ≤ f.slack x i

/-- The parts of a form have a row for every slack and a column for every variable. -/
structure Sized (f : Form Rat) : Prop where
  p : f.p.height = f.columns.length ∧ f.p.width = f.columns.length
  q : f.q.length = f.columns.length
  a : f.a.height = f.zeroRows + f.nonnegativeRows ∧ f.a.width = f.columns.length
  b : f.b.length = f.zeroRows + f.nonnegativeRows

end Form
end Readings

section Columns

variable {columns : List String} {name : String} {j : Nat} {x : Nat → Rat} {w : String → Rat}

def AgreesOn (columns : List String) (x : Nat → Rat) (w : String → Rat) : Prop :=
  ∀ j name, columns[j]? = some name → x j = w name

/-- An entry is the place of a linear term. -/
def Places (columns : List String) (t : String × Rat) (e : Nat × Rat) : Prop :=
  columns[e.1]? = some t.1 ∧ e.2 = t.2

theorem places_of_linearEntries {p : Polynomial Rat} {entries : List (Nat × Rat)}
    (h : linearEntries columns p = .ok entries) :
    List.Forall₂ (Places columns) p.linearTerms entries := by
  refine (mapM_eq_ok_iff.mp h).imp fun t e placed => ?_
  obtain ⟨j, found, same⟩ := bind_eq_ok_iff.mp placed
  cases same
  exact ⟨getElem?_of_columnOf found, rfl⟩

/-- The variables of the terms with a place have a column. -/
theorem mem_columns_of_places {terms : List (String × Rat)} {entries : List (Nat × Rat)}
    (h : List.Forall₂ (Places columns) terms entries) : ∀ t ∈ terms, t.1 ∈ columns := by
  intro t member
  obtain ⟨e, -, here, -⟩ := h.exists_right member
  exact List.mem_of_getElem? here

theorem lt_of_places {terms : List (String × Rat)} {entries : List (Nat × Rat)}
    (h : List.Forall₂ (Places columns) terms entries) : ∀ e ∈ entries, e.1 < columns.length := by
  intro e member
  obtain ⟨t, -, here, -⟩ := h.exists_left member
  exact (List.getElem?_eq_some_iff.mp here).1

theorem sum_places (agrees : AgreesOn columns x w) {terms : List (String × Rat)}
    {entries : List (Nat × Rat)} (h : List.Forall₂ (Places columns) terms entries) :
    (entries.map fun e => e.2 * x e.1).sum = (terms.map fun t => t.2 * w t.1).sum := by
  induction h with
  | nil => rfl
  | @cons t e terms entries placed _ ih =>
      rw [List.map_cons, List.map_cons, List.sum_cons, List.sum_cons, ih, placed.2,
        agrees _ _ placed.1]

end Columns

section Objective

variable {columns : List String} {x : Nat → Rat} {w : String → Rat}

theorem coefficientOf_eq_sum (entries : List (Nat × Rat)) (j : Nat) :
    coefficientOf entries j = (entries.map fun e => if e.1 = j then e.2 else 0).sum := by
  have filtered : coefficientOf entries j =
      ((entries.filter fun e => e.1 = j).map Prod.snd).sum := by
    unfold coefficientOf
    rw [List.sum_eq_foldl, List.foldl_map]
  rw [filtered]
  clear filtered
  induction entries with
  | nil => rfl
  | cons e entries ih => by_cases here : e.1 = j <;> simp [here, ih]

/-- A sum over columns is a sum over entries. -/
theorem sum_coefficientOf {n : Nat} {entries : List (Nat × Rat)} (inside : ∀ e ∈ entries, e.1 < n) :
    ∑ j ∈ range n, coefficientOf entries j * x j = (entries.map fun e => e.2 * x e.1).sum := by
  simp only [coefficientOf_eq_sum]
  induction entries with
  | nil => simp
  | cons e entries ih =>
      obtain ⟨here, inside⟩ := List.forall_mem_cons.mp inside
      simp only [List.map_cons, List.sum_cons, add_mul, sum_add_distrib, ih inside, ite_mul,
        zero_mul]
      rw [sum_ite_eq, if_pos (mem_range.mpr here)]

/-- A triplet is the place of a quadratic term in the upper triangle. -/
structure PlacesProduct (columns : List String) (t : String × String × Rat) (e : Triplet Rat) :
    Prop where
  inside : e.isInside columns.length columns.length = true
  upper : e.row ≤ e.column
  left : t.1 ∈ columns
  right : t.2.1 ∈ columns
  /-- Half of what the triplet contributes to the quadratic form is the term. -/
  value : ∀ x w, AgreesOn columns x w →
    e.value * SparseMatrix.mirrored x e.row e.column = 2 * (t.2.2 * (w t.1 * w t.2.1))

theorem placesProduct_of_quadraticEntry {t : String × String × Rat} {e : Triplet Rat}
    (h : quadraticEntry columns t = .ok e) : PlacesProduct columns t e := by
  obtain ⟨i, first, h⟩ := bind_eq_ok_iff.mp h
  obtain ⟨j, second, same⟩ := bind_eq_ok_iff.mp h
  cases same
  have hi := getElem?_of_columnOf first
  have hj := getElem?_of_columnOf second
  have insideI := (List.getElem?_eq_some_iff.mp hi).1
  have insideJ := (List.getElem?_eq_some_iff.mp hj).1
  have inside : min i j < columns.length ∧ max i j < columns.length :=
    ⟨min_lt_of_left_lt insideI, max_lt insideI insideJ⟩
  refine ⟨Triplet.isInside_iff.mpr inside, min_le_max,
    List.mem_of_getElem? hi, List.mem_of_getElem? hj, fun x w agrees => ?_⟩
  rw [← agrees i _ hi, ← agrees j _ hj]
  rcases eq_or_ne i j with rfl | different
  · simp only [min_self, max_self, SparseMatrix.mirrored, if_true]
    show 2 * t.2.2 * (x i * x i) = 2 * (t.2.2 * (x i * x i))
    ring
  · have apart : min i j ≠ max i j := by omega
    have products : x (min i j) * x (max i j) = x i * x j := by
      rcases le_total i j with le | le
      · rw [min_eq_left le, max_eq_right le]
      · rw [min_eq_right le, max_eq_left le, mul_comm]
    simp only [SparseMatrix.mirrored, different, apart, if_false, products]
    ring

theorem form_places [Compression Rat] (lawful : Compression.Lawful Rat)
    (agrees : AgreesOn columns x w) {terms : List (String × String × Rat)}
    {triplets : List (Triplet Rat)} (h : List.Forall₂ (PlacesProduct columns) terms triplets) :
    (SparseMatrix.ofTriplets columns.length columns.length triplets).form x / 2 =
      (terms.map fun t => t.2.2 * (w t.1 * w t.2.1)).sum := by
  have inside : ∀ e ∈ triplets, e.isInside columns.length columns.length = true :=
    fun e member =>
      let ⟨_, _, placed⟩ := h.exists_left member
      placed.inside
  have upper : ∀ e ∈ triplets, e.row ≤ e.column := fun e member =>
    let ⟨_, _, placed⟩ := h.exists_left member
    placed.upper
  rw [SparseMatrix.form_ofTriplets lawful inside upper]
  clear inside upper
  induction h with
  | nil => simp
  | @cons t e terms triplets placed _ ih =>
      rw [List.map_cons, List.map_cons, List.sum_cons, List.sum_cons, ← ih,
        placed.value x w agrees]
      ring

end Objective

section Rows

variable {columns : List String} {x : Nat → Rat} {v : Assignment Rat}

def Row.Within (n : Nat) (r : Row Rat) : Prop := ∀ e ∈ r.coefficients, e.1 < n

theorem Row.Within.negate {n : Nat} {r : Row Rat} (h : r.Within n) : r.negate.Within n := by
  intro e member
  obtain ⟨e', given, rfl⟩ := List.mem_map.mp member
  exact h e' given

theorem Row.slack_negate (r : Row Rat) : r.negate.slack x = -r.slack x := by
  have opposite : ∀ entries : List (Nat × Rat),
      ((entries.map fun e => (e.1, -e.2)).map fun e => e.2 * x e.1).sum =
        -(entries.map fun e => e.2 * x e.1).sum := by
    intro entries
    induction entries with
    | nil => rfl
    | cons e entries ih =>
        simp only [List.map_cons, List.sum_cons, ih]
        ring
  rw [slack, slack, negate, opposite]
  ring

/-- The triplets of a list of rows, numbered from a first one. -/
def rowTriplets (start : Nat) (rows : List (Row Rat)) : List (Triplet Rat) :=
  (rows.zipIdx start).flatMap fun r => r.1.coefficients.map fun e => ⟨r.2, e.1, e.2⟩

theorem rowTriplets_cons (start : Nat) (r : Row Rat) (rows : List (Row Rat)) :
    rowTriplets start (r :: rows) =
      (r.coefficients.map fun e => ⟨start, e.1, e.2⟩) ++ rowTriplets (start + 1) rows := by
  rw [rowTriplets, List.zipIdx_cons, List.flatMap_cons]
  rfl

theorem mem_rowTriplets {start : Nat} {rows : List (Row Rat)} {t : Triplet Rat}
    (member : t ∈ rowTriplets start rows) :
    start ≤ t.row ∧ t.row < start + rows.length ∧
      ∃ r ∈ rows, (t.column, t.value) ∈ r.coefficients := by
  obtain ⟨⟨r, k⟩, place, member⟩ := List.mem_flatMap.mp member
  obtain ⟨e, stored, rfl⟩ := List.mem_map.mp member
  obtain ⟨low, high, same⟩ := List.mem_zipIdx place
  exact ⟨low, high, r, same ▸ List.getElem_mem _, stored⟩

/-- The rows before and after one contribute nothing to its component. -/
theorem sum_rowTriplets (start : Nat) {i : Nat} {rows : List (Row Rat)} {r : Row Rat}
    (here : rows[i]? = some r) :
    ((rowTriplets start rows).map fun t =>
      t.value * if t.row = start + i then x t.column else 0).sum =
        (r.coefficients.map fun e => e.2 * x e.1).sum := by
  induction rows generalizing start i with
  | nil => cases here
  | cons first rows ih =>
      rw [rowTriplets_cons, List.map_append, List.sum_append, List.map_map]
      cases i with
      | zero =>
          cases here
          have rest : ((rowTriplets (start + 1) rows).map fun t =>
              t.value * if t.row = start + 0 then x t.column else 0).sum = 0 := by
            refine List.sum_eq_zero fun y hy => ?_
            obtain ⟨t, member, rfl⟩ := List.mem_map.mp hy
            have after := (mem_rowTriplets member).1
            rw [if_neg (by omega), mul_zero]
          rw [rest, add_zero]
          simp [Function.comp_def]
      | succ i =>
          have before : (first.coefficients.map ((fun t : Triplet Rat =>
              t.value * if t.row = start + (i + 1) then x t.column else 0) ∘
                fun e => ⟨start, e.1, e.2⟩)).sum = 0 := by
            refine List.sum_eq_zero fun y hy => ?_
            obtain ⟨e, -, rfl⟩ := List.mem_map.mp hy
            rw [Function.comp_apply, if_neg (by dsimp only; omega), mul_zero]
          rw [before, zero_add, ← ih (start + 1) here]
          simp only [Nat.add_assoc, Nat.add_comm 1 i]

/-- A component of the product with a matrix of rows is the left side of a row. -/
theorem apply_rowMatrix [Compression Rat] (lawful : Compression.Lawful Rat) {n : Nat}
    {rows : List (Row Rat)} (within : ∀ r ∈ rows, r.Within n) {i : Nat} {r : Row Rat}
    (here : rows[i]? = some r) :
    (rowMatrix n rows).apply x i = (r.coefficients.map fun e => e.2 * x e.1).sum := by
  have fits : ∀ t ∈ rowTriplets 0 rows, t.isInside rows.length n = true := by
    intro t member
    obtain ⟨-, inside, r, given, stored⟩ := mem_rowTriplets member
    exact Triplet.isInside_iff.mpr ⟨by omega, within r given _ stored⟩
  have total := sum_rowTriplets 0 (x := x) here
  rw [Nat.zero_add] at total
  rw [rowMatrix, ← total]
  exact SparseMatrix.apply_ofTriplets lawful fits x i

end Rows

section Constraints

variable {columns : List String} {x : Nat → Rat} {v : Assignment Rat} {c : Constraint Rat}

/-- What it takes for a constraint to be satisfied. -/
theorem satisfied_iff (assigned : c.lhs.Over v.Assigns) :
    c.Satisfied v ↔ c.comparison.Relates (c.lhs.value v.total) c.rhs := by
  have evaluated : c.lhs.evaluate v = .ok (c.lhs.value v.total) :=
    Polynomial.evaluate_eq_ok_iff.mpr ⟨assigned, rfl⟩
  have closed := c.comparison.holds_iff (c.lhs.value v.total) c.rhs (-c.rhs)
  rw [sub_neg_eq_add, sub_add_cancel, neg_neg] at closed
  rw [← closed, Constraint.Satisfied, Constraint.isSatisfied, evaluated]
  exact ⟨fun h => Except.ok.inj h, fun h => congrArg Except.ok h⟩

/-- The row of a constraint, before it is turned. -/
structure Lays (columns : List String) (c : Constraint Rat) (r : Row Rat) : Prop where
  linear : c.degree ≤ 1
  places : List.Forall₂ (Places columns) c.lhs.linearTerms r.coefficients
  rhs : r.rhs = c.rhs

/-- A row is laid for a constraint, and turned if it bounds from below. -/
theorem lays_of_constraintRow {id : String} {relation : Comparison} {row : Row Rat}
    (h : constraintRow columns id c = .ok (relation, row)) :
    ∃ r, Lays columns c r ∧
      (c.comparison.relaxed = .ge ∧ relation = .le ∧ row = r.negate ∨
        c.comparison.relaxed ≠ .ge ∧ relation = c.comparison.relaxed ∧ row = r) := by
  by_cases high : c.degree > 1
  · simp only [constraintRow, high, if_true] at h
    cases h
  simp only [constraintRow, high, if_false, bind_eq_ok_iff] at h
  obtain ⟨entries, placed, h⟩ := h
  refine ⟨⟨entries, c.rhs⟩, ⟨Nat.le_of_not_lt high, places_of_linearEntries placed, rfl⟩, ?_⟩
  split at h
  next lower =>
    cases h
    exact .inl ⟨lower, rfl, rfl⟩
  next other =>
    cases h
    exact .inr ⟨other, rfl, rfl⟩

/-- The terms of a constraint's left side have variables with a column. -/
theorem Lays.over {r : Row Rat} (h : Lays columns c r) (assigned : ∀ x ∈ columns, v.Assigns x) :
    c.lhs.Over v.Assigns := by
  refine Polynomial.over_of_degree_le_two (h.linear.trans (by decide))
    (fun t member => assigned _ (mem_columns_of_places h.places t member)) ?_
  rw [Polynomial.quadraticTerms_eq_nil h.linear]
  exact fun _ none => absurd none List.not_mem_nil

theorem Lays.slack {r : Row Rat} (h : Lays columns c r) (comparison : c.IsComparison)
    (agrees : AgreesOn columns x v.total) : r.slack x = c.rhs - c.lhs.value v.total := by
  have value := Polynomial.value_of_linear_and_quadratic (w := v.total) comparison.one_notMem
    (h.linear.trans (by decide))
  rw [Polynomial.quadraticTerms_eq_nil h.linear, List.map_nil, List.sum_nil, add_zero] at value
  rw [Row.slack, sum_places agrees h.places, h.rhs, value]

/-- A constraint is satisfied when the slack of its row is as demanded. -/
theorem satisfied_iff_demands {id : String} {laid : Comparison × Row Rat}
    (assigned : ∀ x ∈ columns, v.Assigns x) (agrees : AgreesOn columns x v.total)
    (comparison : c.IsComparison) (h : constraintRow columns id c = .ok laid) :
    c.Satisfied v ↔ Demands laid.1 (laid.2.slack x) := by
  obtain ⟨r, lays, turned⟩ := lays_of_constraintRow h
  rw [satisfied_iff (lays.over assigned)]
  obtain ⟨lower, relation, row⟩ | ⟨other, relation, row⟩ := turned
  · rw [relation, row, Row.slack_negate, lays.slack comparison agrees]
    cases same : c.comparison with
    | ge | gt => simp [Comparison.Relates, Demands]
    | eq | le | lt =>
        rw [same] at lower
        cases lower
  · rw [relation, row, lays.slack comparison agrees]
    cases same : c.comparison with
    | ge | gt =>
        rw [same] at other
        exact absurd rfl other
    | eq =>
        simp only [Comparison.Relates, Comparison.relaxed, Demands, if_true]
        rw [sub_eq_zero, eq_comm]
    | le | lt => simp [Comparison.Relates, Comparison.relaxed, Demands]

theorem within_of_constraintRow {id : String} {laid : Comparison × Row Rat}
    (h : constraintRow columns id c = .ok laid) : laid.2.Within columns.length := by
  obtain ⟨r, lays, turned⟩ := lays_of_constraintRow h
  have within : r.Within columns.length := lt_of_places lays.places
  obtain ⟨-, -, row⟩ | ⟨-, -, row⟩ := turned
  · rw [row]
    exact within.negate
  · rwa [row]

end Constraints

section Bounds

variable {n j : Nat} {x : Nat → Rat} {v : Assignment Rat} {y : Variable Rat}

/-- A continuous variable has a value in its domain when the slacks of its bounds are not
negative. -/
theorem admits_iff_boundRows (continuous : y.kind = .continuous) :
    y.admits (x j) 0 = true ↔ ∀ r ∈ boundRows y j, 0 ≤ r.slack x := by
  obtain ⟨name, kind, lower, upper⟩ := y
  cases continuous
  rcases lower with _ | lower <;> rcases upper with _ | upper <;>
    simp [Variable.admits, boundRows, Row.slack]

theorem within_of_boundRows (inside : j < n) : ∀ r ∈ boundRows y j, r.Within n := by
  obtain ⟨name, kind, lower, upper⟩ := y
  rcases lower with _ | lower <;> rcases upper with _ | upper <;>
    simp [boundRows, Row.Within, inside]

end Bounds

section Forms

variable {m : Model Rat} {f : Form Rat} {x : Nat → Rat} {v : Assignment Rat}

def equalities (rows : List (Comparison × Row Rat)) : List (Row Rat) :=
  (rows.filter fun r => r.1 = .eq).map Prod.snd

/-- The rows of the other constraints and of the bounds. -/
def inequalities (rows : List (Comparison × Row Rat)) (vars : List (Variable Rat)) :
    List (Row Rat) :=
  (rows.filter fun r => r.1 ≠ .eq).map Prod.snd ++ vars.zipIdx.flatMap fun v => boundRows v.1 v.2

theorem continuous_of_checkContinuous {α : Type} {vars : List (Variable α)}
    (h : checkContinuous vars = .ok ()) : ∀ y ∈ vars, y.kind = .continuous := by
  unfold checkContinuous at h
  split at h
  next => cases h
  next none => simpa using none

variable [Compression Rat]

/-- The parts that the conic form of a model is made of. -/
structure Assembled (m : Model Rat) (f : Form Rat) (entries : List (Nat × Rat))
    (triplets : List (Triplet Rat)) (laid : List (Comparison × Row Rat)) : Prop where
  columns : f.columns = m.vars.values.map Variable.name
  continuous : ∀ y ∈ m.vars.values, y.kind = .continuous
  degree : (minimand m).degree ≤ 2
  linear : List.Forall₂ (Places f.columns) (minimand m).linearTerms entries
  quadratic : List.Forall₂ (PlacesProduct f.columns) (minimand m).quadraticTerms triplets
  rows : List.Forall₂ (fun e row => constraintRow f.columns e.1 e.2 = .ok row)
    m.constraints.entries laid
  p : f.p = .ofTriplets f.columns.length f.columns.length triplets
  q : f.q = (List.range f.columns.length).map (coefficientOf entries)
  a : f.a = rowMatrix f.columns.length (equalities laid ++ inequalities laid m.vars.values)
  b : f.b = (equalities laid ++ inequalities laid m.vars.values).map Row.rhs
  zeroRows : f.zeroRows = (equalities laid).length
  nonnegativeRows : f.nonnegativeRows = (inequalities laid m.vars.values).length

theorem exists_assembled (h : Form.ofModel m = .ok f) :
    ∃ entries triplets laid, Assembled m f entries triplets laid := by
  simp only [Form.ofModel, bind_eq_ok_iff, pure_eq_ok_iff] at h
  obtain ⟨_, continuous, _, degree, entries, placed, triplets, placed', laid, rows, rfl⟩ := h
  exact ⟨entries, triplets, laid, {
    columns := rfl
    continuous := continuous_of_checkContinuous continuous
    degree := Lp.limitDegree_eq_ok_iff.mp degree
    linear := places_of_linearEntries placed
    quadratic := (mapM_eq_ok_iff.mp placed').imp fun _ _ => placesProduct_of_quadraticEntry
    rows := mapM_eq_ok_iff.mp rows
    p := rfl
    q := rfl
    a := rfl
    b := rfl
    zeroRows := rfl
    nonnegativeRows := rfl }⟩

variable {entries : List (Nat × Rat)} {triplets : List (Triplet Rat)}
  {laid : List (Comparison × Row Rat)}

namespace Assembled

theorem within (h : Assembled m f entries triplets laid) :
    ∀ r ∈ equalities laid ++ inequalities laid m.vars.values, r.Within f.columns.length := by
  have constraints : ∀ {r kept}, r ∈ (laid.filter kept).map Prod.snd →
      r.Within f.columns.length := by
    intro r kept member
    obtain ⟨row, given, rfl⟩ := List.mem_map.mp member
    obtain ⟨e, -, made⟩ := h.rows.exists_left (List.mem_filter.mp given).1
    exact within_of_constraintRow made
  intro r member
  obtain equality | member := List.mem_append.mp member
  · exact constraints equality
  obtain inequality | bound := List.mem_append.mp member
  · exact constraints inequality
  · obtain ⟨⟨y, j⟩, place, bound⟩ := List.mem_flatMap.mp bound
    obtain ⟨inside, -⟩ := List.getElem?_eq_some_iff.mp (List.mem_zipIdx_iff_getElem?.mp place)
    refine within_of_boundRows ?_ r bound
    rwa [h.columns, List.length_map]

theorem sized (lawful : Compression.Lawful Rat) (h : Assembled m f entries triplets laid) :
    f.Sized := by
  have rows : (equalities laid ++ inequalities laid m.vars.values).length =
      f.zeroRows + f.nonnegativeRows := by
    rw [h.zeroRows, h.nonnegativeRows, List.length_append]
  exact {
    p := by
      rw [h.p]
      exact SparseMatrix.size_ofTriplets lawful ..
    q := by rw [h.q, List.length_map, List.length_range]
    a := by
      rw [h.a, ← rows]
      exact SparseMatrix.size_ofTriplets lawful ..
    b := by rw [h.b, List.length_map, rows] }

theorem agrees (_ : Assembled m f entries triplets laid) :
    AgreesOn f.columns (f.point v) v.total := by
  intro j name here
  rw [Form.point, List.getD_eq_getElem?_getD, here]
  rfl

theorem slack_eq (lawful : Compression.Lawful Rat) (h : Assembled m f entries triplets laid)
    {i : Nat} {r : Row Rat}
    (here : (equalities laid ++ inequalities laid m.vars.values)[i]? = some r) :
    f.slack x i = r.slack x := by
  rw [Form.slack, h.a, apply_rowMatrix lawful h.within here, h.b, List.getD_eq_getElem?_getD,
    List.getElem?_map, here]
  rfl

theorem slack_equality (lawful : Compression.Lawful Rat)
    (h : Assembled m f entries triplets laid) {i : Nat} (inside : i < (equalities laid).length) :
    f.slack x i = (equalities laid)[i].slack x := by
  apply h.slack_eq lawful
  rw [List.getElem?_append_left inside, List.getElem?_eq_getElem inside]

theorem slack_inequality (lawful : Compression.Lawful Rat)
    (h : Assembled m f entries triplets laid) {i : Nat}
    (inside : i < (inequalities laid m.vars.values).length) :
    f.slack x ((equalities laid).length + i) = (inequalities laid m.vars.values)[i].slack x := by
  apply h.slack_eq lawful
  rw [List.getElem?_append_right (Nat.le_add_right _ _), Nat.add_sub_cancel_left,
    List.getElem?_eq_getElem inside]

/-- A point lies in the cones when the slacks of all rows are as demanded. -/
theorem feasible_iff (lawful : Compression.Lawful Rat) (h : Assembled m f entries triplets laid) :
    f.Feasible x ↔ (∀ r ∈ laid, Demands r.1 (r.2.slack x)) ∧
      ∀ e ∈ m.vars.values.zipIdx, ∀ r ∈ boundRows e.1 e.2, 0 ≤ r.slack x := by
  have byRow : f.Feasible x ↔ (∀ r ∈ equalities laid, r.slack x = 0) ∧
      ∀ r ∈ inequalities laid m.vars.values, 0 ≤ r.slack x := by
    simp only [List.forall_mem_iff_forall_getElem]
    constructor
    · intro feasible
      refine ⟨fun i inside => ?_, fun i inside => ?_⟩
      · rw [← h.slack_equality lawful]
        exact feasible.zero i (h.zeroRows ▸ inside)
      · rw [← h.slack_inequality lawful]
        exact feasible.nonnegative _ (h.zeroRows ▸ Nat.le_add_right _ _)
          (by rw [h.zeroRows, h.nonnegativeRows]; omega)
    · rintro ⟨zero, nonnegative⟩
      refine ⟨fun i low => ?_, fun i high low => ?_⟩
      · rw [h.slack_equality lawful (h.zeroRows ▸ low)]
        exact zero i (h.zeroRows ▸ low)
      · rw [h.zeroRows] at high low
        rw [h.nonnegativeRows] at low
        obtain ⟨k, rfl⟩ := Nat.exists_eq_add_of_le high
        have inside := Nat.lt_of_add_lt_add_left low
        rw [h.slack_inequality lawful inside]
        exact nonnegative k inside
  have byRelation : (∀ r ∈ laid, Demands r.1 (r.2.slack x)) ↔
      (∀ r ∈ equalities laid, r.slack x = 0) ∧
        ∀ r ∈ (laid.filter fun r => r.1 ≠ .eq).map Prod.snd, 0 ≤ r.slack x := by
    simp only [equalities, List.forall_mem_map, List.mem_filter, decide_eq_true_eq]
    constructor
    · refine fun demands => ⟨fun r given => ?_, fun r given => ?_⟩
      · simpa [Demands, given.2] using demands r given.1
      · simpa [Demands, given.2] using demands r given.1
    · rintro ⟨zero, nonnegative⟩ r given
      unfold Demands
      split
      next equality => exact zero r ⟨given, equality⟩
      next inequality => exact nonnegative r ⟨given, inequality⟩
  rw [byRow, byRelation, inequalities, List.forall_mem_append, and_assoc]
  simp only [List.mem_flatMap, forall_exists_index, and_imp]
  exact and_congr_right fun _ => and_congr_right fun _ =>
    ⟨fun all e place r bound => all r e place bound, fun all r e place bound => all e place r bound⟩

/-- The names of the columns are those of the variables. -/
theorem columns_eq [Naming Rat] (h : Assembled m f entries triplets laid)
    (consistent : m.Consistent) :
    f.columns = m.vars.names := by
  rw [h.columns, consistent.names_eq]

/-- An assignment is feasible when its point lies in the cones. -/
theorem model_feasible_iff (lawful : Compression.Lawful Rat)
    (h : Assembled m f entries triplets laid)
    (comparisons : ∀ c ∈ m.constraints.values, c.IsComparison)
    (assigned : ∀ name ∈ f.columns, v.Assigns name) :
    m.Feasible v ↔ f.Feasible (f.point v) := by
  have agrees : AgreesOn f.columns (f.point v) v.total := h.agrees
  have rows : (∀ c ∈ m.constraints.values, c.Satisfied v) ↔
      ∀ r ∈ laid, Demands r.1 (r.2.slack (f.point v)) := by
    rw [Registry.values, List.forall_mem_map]
    exact h.rows.forall_iff fun e member r made => satisfied_iff_demands assigned agrees
      (comparisons e.2 (List.mem_map_of_mem member)) made
  have domains : (∀ y ∈ m.vars.values, ∃ a, v y.name = some a ∧ y.admits a 0 = true) ↔
      ∀ e ∈ m.vars.values.zipIdx, ∀ r ∈ boundRows e.1 e.2, 0 ≤ r.slack (f.point v) := by
    have values : m.vars.values = m.vars.values.zipIdx.map Prod.fst :=
      (List.zipIdx_map_fst 0 m.vars.values).symm
    conv_lhs => rw [values]
    rw [List.forall_mem_map]
    refine forall₂_congr fun entry place => ?_
    obtain ⟨y, j⟩ := entry
    have registered := List.mem_zipIdx_iff_getElem?.mp place
    have column : f.columns[j]? = some y.name := by
      rw [h.columns, List.getElem?_map, registered]
      rfl
    obtain ⟨a, value⟩ := Option.isSome_iff_exists.mp (assigned _ (List.mem_of_getElem? column))
    have coordinate : f.point v j = a := by
      rw [agrees j _ column, Assignment.total, value, Option.getD_some]
    rw [← admits_iff_boundRows (h.continuous y (List.mem_of_getElem? registered)), coordinate]
    simp [value]
  rw [h.feasible_iff lawful, ← rows, ← domains]
  exact ⟨fun feasible => ⟨feasible.rows, feasible.domains⟩, fun both => ⟨both.2, both.1⟩⟩

theorem over_rows (h : Assembled m f entries triplets laid)
    (assigned : ∀ name ∈ f.columns, v.Assigns name) :
    ∀ c ∈ m.constraints.values, c.lhs.Over v.Assigns := by
  intro c member
  obtain ⟨e, stored, rfl⟩ := List.mem_map.mp member
  obtain ⟨r, -, made⟩ := h.rows.exists_right stored
  obtain ⟨r', lays, -⟩ := lays_of_constraintRow made
  exact lays.over assigned

/-- An assignment of all variables is found to be feasible exactly when its point lies in the
cones. -/
theorem exists_isFeasible (lawful : Compression.Lawful Rat)
    (h : Assembled m f entries triplets laid)
    (comparisons : ∀ c ∈ m.constraints.values, c.IsComparison)
    (assigned : ∀ name ∈ f.columns, v.Assigns name) :
    ∃ result, m.isFeasible v 0 = .ok result ∧ (result = true ↔ f.Feasible (f.point v)) := by
  have vars : ∀ y ∈ m.vars.values, v.Assigns y.name := fun y member =>
    assigned _ (h.columns ▸ List.mem_map_of_mem member)
  obtain ⟨result, checked⟩ := Model.exists_isFeasible vars (h.over_rows assigned)
  refine ⟨result, checked, ?_⟩
  rw [← h.model_feasible_iff lawful comparisons assigned, ← Model.isFeasible_iff, checked]
  exact ⟨fun h => h ▸ rfl, fun h => Except.ok.inj h⟩

theorem over_minimand (h : Assembled m f entries triplets laid)
    (assigned : ∀ name ∈ f.columns, v.Assigns name) : (minimand m).Over v.Assigns := by
  refine Polynomial.over_of_degree_le_two h.degree
    (fun t member => assigned _ (mem_columns_of_places h.linear t member)) fun t member => ?_
  obtain ⟨e, -, placed⟩ := h.quadratic.exists_right member
  exact ⟨assigned _ placed.left, assigned _ placed.right⟩

/-- The cost of a point is the value of the polynomial to be minimized, without its constant term. -/
theorem cost_eq (lawful : Compression.Lawful Rat) (h : Assembled m f entries triplets laid)
    (ordered : (minimand m).Ordered) :
    f.cost (f.point v) = (minimand m).value v.total - (minimand m).constantTerm := by
  have agrees : AgreesOn f.columns (f.point v) v.total := h.agrees
  have linear : ∑ j ∈ range f.columns.length, f.q.getD j 0 * f.point v j =
      ((minimand m).linearTerms.map fun t => t.2 * v.total t.1).sum := by
    rw [← sum_places agrees h.linear, ← sum_coefficientOf (lt_of_places h.linear)]
    refine sum_congr rfl fun j inside => ?_
    rw [h.q, List.getD_eq_getElem?_getD, List.getElem?_map,
      List.getElem?_range (mem_range.mp inside)]
    rfl
  rw [Form.cost, linear, h.p, form_places lawful agrees h.quadratic,
    Polynomial.value_of_degree_le_two ordered h.degree]
  ring

/-- The cost of a point is the value of the objective without its constant term; a maximum is sought
as the minimum of the negation. -/
theorem exists_objectiveValue (lawful : Compression.Lawful Rat)
    (h : Assembled m f entries triplets laid) (normal : m.objective.Normal)
    (assigned : ∀ name ∈ f.columns, v.Assigns name) :
    ∃ y, m.objectiveValue v = .ok y ∧ f.cost (f.point v) =
      match m.direction with
      | .minimize => y - m.objective.constantTerm
      | .maximize => -(y - m.objective.constantTerm) := by
  have valued := h.over_minimand assigned
  have cost := fun ordered => h.cost_eq (v := v) lawful ordered
  unfold minimand at valued cost
  cases direction : m.direction with
  | minimize =>
      simp only [direction] at valued cost
      exact ⟨_, Polynomial.evaluate_eq_ok_iff.mpr ⟨valued, rfl⟩, cost normal.ordered⟩
  | maximize =>
      simp only [direction] at valued cost
      have valued' : m.objective.Over v.Assigns := by
        unfold Polynomial.Over at valued ⊢
        rwa [normal.keys_negate] at valued
      refine ⟨_, Polynomial.evaluate_eq_ok_iff.mpr ⟨valued', rfl⟩, ?_⟩
      simp [cost normal.ordered.negate, normal.ordered, neg_add_eq_sub]

end Assembled

end Forms

section Faithfulness

variable [Naming Rat] [Compression Rat] {m : Model Rat} {f : Form Rat} {v : Assignment Rat}

/-- The conic form of a reachable model has a column for every variable, in order of registration.
An assignment is feasible exactly when the slacks of its point are zero in the first rows and not
negative in the others. Its cost is the objective without the constant term, negated if that is to
be maximized. Nothing is stored below the diagonal. -/
theorem ofModel_faithful (lawful : Compression.Lawful Rat) (reachable : m.Reachable)
    (comparisons : ∀ c ∈ m.constraints.values, c.IsComparison) (formed : Form.ofModel m = .ok f)
    (assigned : ∀ name ∈ m.vars.names, v.Assigns name) :
    f.columns = m.vars.names ∧ f.Sized ∧
    (∃ result, m.isFeasible v 0 = .ok result ∧ (result = true ↔ f.Feasible (f.point v))) ∧
    (∃ y, m.objectiveValue v = .ok y ∧ f.cost (f.point v) =
      match m.direction with
      | .minimize => y - m.objective.constantTerm
      | .maximize => -(y - m.objective.constantTerm)) ∧
    ∀ t ∈ f.p.toTriplets, t.row ≤ t.column := by
  obtain ⟨entries, triplets, laid, parts⟩ := exists_assembled formed
  have columns := parts.columns_eq reachable.consistent
  have assigned' : ∀ name ∈ f.columns, v.Assigns name := columns ▸ assigned
  refine ⟨columns, parts.sized lawful, parts.exists_isFeasible lawful comparisons assigned',
    parts.exists_objectiveValue lawful reachable.normal_objective assigned', ?_⟩
  rw [parts.p]
  refine SparseMatrix.upper_ofTriplets lawful fun e member => ?_
  obtain ⟨t, -, placed⟩ := parts.quadratic.exists_left member
  exact placed.upper

end Faithfulness

/-- A maximum with a square and a mixed term, an equality, a strict bound from below with a constant
on both sides, and three bounds of variables. -/
theorem quadratic_maximum_faithful :
    let x : Polynomial Rat := .var "x"
    let y : Polynomial Rat := .var "y"
    let balance : Constraint Rat := .compare (x.add y) .eq (.constant 3)
    let least : Constraint Rat :=
      (Constraint.compare (x.add (.constant 1)) .gt (y.scale (-2))).withLabel "least"
    let m : Model Rat := .build .maximize .standard [
      .registerAs "x" (.between .free 0 4), .registerAs "y" (.atMost .free 2),
      .addConstraint balance, .addConstraint least,
      .increaseObjective ((x.multiply x).add ((x.multiply y).add ((y.scale 5).add (.constant 7))))]
    let v : Assignment Rat := fun name => if name = "x" then some 2 else some 1
    ∃ f, Form.ofModel m = .ok f ∧ f.zeroRows = 1 ∧ f.nonnegativeRows = 4 ∧
      f.Feasible (f.point v) ∧ f.cost (f.point v) = -11 := by
  intro x y balance least m v
  have reachable : m.Reachable := Model.reachable_build _ _ _
  have rows : m.constraints.values = [balance, least] := by decide +kernel
  have comparisons : ∀ c ∈ m.constraints.values, c.IsComparison := by
    rw [rows]
    rintro c (_ | ⟨_, _ | ⟨_, none⟩⟩)
    · exact ⟨_, _, _, (Polynomial.ordered_var "x").add y, rfl⟩
    · exact ⟨_, _, _, (Polynomial.ordered_var "x").add _, rfl⟩
    · cases none
  have sizes : (Form.ofModel m).map (fun f => (f.zeroRows, f.nonnegativeRows)) = .ok (1, 4) := by
    decide +kernel
  rcases formed : Form.ofModel m with e | f
  · rw [formed] at sizes
    cases sizes
  rw [formed] at sizes
  have assigned : ∀ name ∈ m.vars.names, v.Assigns name := by
    intro name _
    by_cases first : name = "x" <;> simp [Assignment.Assigns, v, first]
  obtain ⟨-, -, ⟨result, checked, feasible⟩, ⟨value, evaluated, cost⟩, -⟩ :=
    ofModel_faithful Insertion.lawful_rat reachable comparisons formed assigned
  have holds : m.isFeasible v 0 = .ok true := by decide +kernel
  have objective : m.objectiveValue v = .ok 18 := by decide +kernel
  have constant : m.objective.constantTerm = 7 := by decide +kernel
  have same : result = true := Except.ok.inj (checked.symm.trans holds)
  obtain rfl : value = 18 := Except.ok.inj (evaluated.symm.trans objective)
  refine ⟨f, rfl, congrArg Prod.fst (Except.ok.inj sizes), congrArg Prod.snd (Except.ok.inj sizes),
    feasible.mp same, ?_⟩
  rw [cost, constant]
  show -((18 : Rat) - 7) = -11
  norm_num

end MipModel.Conic
