import MipModel.Proofs.Meaning

/-!
# What rows say about values

A row compares two polynomials, and an assignment satisfies it at tolerance zero exactly when the
values of the polynomials are related. So the rows of a gadget say something about the values of
its operands, of its variable and of its switches (`Gadget.RowsHold`), and they say no more than
that. Soundness reads this from left to right, completeness from right to left.
-/

namespace MipModel

open MipModel.Polynomial

/-- The relation between exact numbers that a comparison demands at tolerance zero. -/
def Comparison.Relates : Comparison → Rat → Rat → Prop
  | eq, y, z => y = z
  | le, y, z | lt, y, z => y ≤ z
  | ge, y, z | gt, y, z => z ≤ y

theorem Comparison.holds_iff (comparison : Comparison) (y z k : Rat) :
    comparison.holds (y - z - k) (-k) 0 = true ↔ comparison.Relates y z := by
  cases comparison with
  | eq =>
      have magnitude : ∀ d : Rat, Scalar.abs d ≤ 0 ↔ d = 0 := by
        intro d
        show (if d < 0 then -d else d) ≤ 0 ↔ d = 0
        split <;> constructor <;> intro h <;> linarith
      rw [holds, decide_eq_true_iff, magnitude]
      constructor <;> intro h <;> simp only [Relates] at * <;> linarith
  | le | lt =>
      rw [holds, decide_eq_true_iff]
      constructor <;> intro h <;> simp only [Relates] at * <;> linarith
  | ge | gt =>
      rw [holds, decide_eq_true_iff]
      constructor <;> intro h <;> simp only [Relates, ge_iff_le] at * <;> linarith

variable {v : Assignment Rat}

/-- The assignment satisfies a constraint exactly. -/
def Constraint.Satisfied (v : Assignment Rat) (c : Constraint Rat) : Prop :=
  c.isSatisfied v 0 = .ok true

/-- A comparison of polynomials is satisfied when their values are related. -/
theorem satisfied_compare_iff {p q : Polynomial Rat} {y z : Rat} (hp : p.Means v y)
    (hq : q.Means v z) (comparison : Comparison) :
    (Constraint.compare p comparison q).Satisfied v ↔ comparison.Relates y z := by
  obtain ⟨ordered, assigned, rfl⟩ := means_iff.mp hp
  obtain ⟨-, assigned', rfl⟩ := means_iff.mp hq
  have difference := ordered.subtract q
  have evaluated : (p.subtract q).withoutConstant.evaluate v =
      .ok (p.value v.total - q.value v.total - (p.subtract q).constantTerm) := by
    refine evaluate_eq_ok_iff.mpr ⟨(assigned.subtract assigned').withoutConstant, ?_⟩
    simp [difference, ordered]
  rw [← comparison.holds_iff _ _ (p.subtract q).constantTerm]
  simp only [Constraint.Satisfied, Constraint.isSatisfied, Constraint.compare, evaluated]
  exact ⟨fun h => Except.ok.inj h, fun h => congrArg Except.ok h⟩

namespace Piece

/-- The rows of a segment, for an argument, a value and a switch. -/
structure Holds (piece : Piece Rat) (M x y b : Rat) : Prop where
  below : y ≤ piece.valueAt x + (1 - b) * M
  above : piece.valueAt x - (1 - b) * M ≤ y
  after : piece.start - (1 - b) * M ≤ x
  before : x ≤ piece.stop + (1 - b) * M

end Piece

/-- The rows of a gadget, for its value, the values of its switches and the constant that switches
rows off. -/
def Gadget.RowsHold (M : Rat) : Gadget Rat Rat → Rat → List Rat → Prop
  | .abs x, y, _ => x ≤ y ∧ -x ≤ y
  | .max xs, y, _ => ∀ x ∈ xs, x ≤ y
  | .min xs, y, _ => ∀ x ∈ xs, y ≤ x
  | .and xs, y, _ => (∀ x ∈ xs, y ≤ x) ∧ xs.sum - (xs.length - 1) ≤ y
  | .or xs, y, _ => (∀ x ∈ xs, x ≤ y) ∧ y ≤ xs.sum
  | .ifThenElse c t f, y, switches => ∃ b, switches = [b] ∧ b = c ∧
    y ≤ t + (1 - b) * M ∧ t - (1 - b) * M ≤ y ∧ y ≤ f + b * M ∧ f - b * M ≤ y
  | .piecewise x shape, y, switches => switches.sum = 1 ∧
    ∀ s ∈ switches.zip shape.pieces, s.2.Holds M x y s.1

section Lists

variable {ps : List (Polynomial Rat)} {xs : List Rat} {p : Polynomial Rat} {y : Rat}

theorem means_sum (all : List.Forall₂ (Means v) ps xs) : (sum ps).Means v xs.sum := by
  rw [List.sum_eq_foldl]
  exact means_foldl_add means_zero all

theorem satisfied_comparisons_iff (all : List.Forall₂ (Means v) ps xs) (hp : p.Means v y)
    (comparison : Comparison) :
    (∀ row ∈ ps.map fun q => Constraint.compare p comparison q, row.Satisfied v) ↔
      ∀ x ∈ xs, comparison.Relates y x := by
  induction all with
  | nil => simp
  | cons head _ ih =>
      rw [List.map_cons, List.forall_mem_cons, List.forall_mem_cons, ih,
        satisfied_compare_iff hp head]

theorem means_vars {names : List String} {bs : List Rat}
    (h : List.Forall₂ (fun name b => v name = some b) names bs) :
    List.Forall₂ (Means v) (names.map Polynomial.var) bs := by
  rw [List.forall₂_map_left_iff]
  exact h.imp fun _ _ => means_var

end Lists

section Pieces

variable {value argument switch : Polynomial Rat} {x y b : Rat}

theorem means_offWhile (h : switch.Means v b) (M : Rat) :
    (Gadget.offWhile switch M).Means v ((1 - b) * M) :=
  ((means_constant 1).subtract h).scale M

theorem satisfied_pieceRows_iff (hy : value.Means v y) (hx : argument.Means v x)
    (hb : switch.Means v b) (M : Rat) (piece : Piece Rat) :
    (∀ row ∈ Gadget.pieceRows value argument switch M piece, row.Satisfied v) ↔
      piece.Holds M x y b := by
  have slack := means_offWhile hb M
  have segment := (hx.scale piece.slope).add (means_constant (v := v) piece.intercept)
  rw [mul_comm] at segment
  have below := satisfied_compare_iff hy (segment.add slack) .le
  have above := satisfied_compare_iff hy (segment.subtract slack) .ge
  have after := satisfied_compare_iff hx ((means_constant piece.start).subtract slack) .ge
  have before := satisfied_compare_iff hx ((means_constant piece.stop).add slack) .le
  simp only [Gadget.pieceRows, List.forall_mem_cons, List.not_mem_nil, false_imp_iff,
    implies_true, and_true, below, above, after, before]
  exact ⟨fun ⟨h₁, h₂, h₃, h₄⟩ => ⟨h₁, h₂, h₃, h₄⟩, fun ⟨h₁, h₂, h₃, h₄⟩ => ⟨h₁, h₂, h₃, h₄⟩⟩

theorem satisfied_allPieceRows_iff (hy : value.Means v y) (hx : argument.Means v x)
    {switches : List (Polynomial Rat)} {bs : List Rat} (hs : List.Forall₂ (Means v) switches bs)
    (M : Rat) (pieces : List (Piece Rat)) :
    (∀ row ∈ (switches.zip pieces).flatMap
        fun s => Gadget.pieceRows value argument s.1 M s.2, row.Satisfied v) ↔
      ∀ s ∈ bs.zip pieces, s.2.Holds M x y s.1 := by
  induction hs generalizing pieces with
  | nil => simp
  | cons head _ ih =>
      cases pieces with
      | nil => simp
      | cons piece pieces =>
          rw [List.zip_cons_cons, List.zip_cons_cons, List.flatMap_cons, List.forall_mem_append,
            List.forall_mem_cons, ih pieces, satisfied_pieceRows_iff hy hx head]

end Pieces

/-- The rows of a gadget are satisfied exactly when they hold of the values. -/
theorem satisfied_rows_iff {g : Gadget (Polynomial Rat) Rat} {g' : Gadget Rat Rat} {name : String}
    {y : Rat} {bs : List Rat} (related : g.Related (Means v) g') (hy : v name = some y)
    (hs : List.Forall₂ (fun name b => v name = some b) (g.companions name) bs) (M : Rat) :
    (∀ row ∈ g.rows name M, row.Satisfied v) ↔ g'.RowsHold M y bs := by
  have value := means_var hy
  cases related with
  | abs operand =>
      simp only [Gadget.rows, List.forall_mem_cons, List.not_mem_nil, false_imp_iff, implies_true,
        and_true, satisfied_compare_iff value operand, satisfied_compare_iff value operand.negate]
      exact Iff.rfl
  | max operands => exact satisfied_comparisons_iff operands value .ge
  | min operands => exact satisfied_comparisons_iff operands value .le
  | @and ps xs operands =>
      have length : (Scalar.ofInt ps.length - 1 : Rat) = xs.length - 1 := by
        show ((ps.length : Int) : Rat) - 1 = xs.length - 1
        rw [operands.length_eq, Int.cast_natCast]
      have bound := (means_sum operands).subtract
        (means_constant (v := v) (Scalar.ofInt ps.length - 1))
      rw [length] at bound
      simp only [Gadget.rows, List.forall_mem_append, List.forall_mem_singleton,
        satisfied_comparisons_iff operands value, length, satisfied_compare_iff value bound]
      exact Iff.rfl
  | or operands =>
      simp only [Gadget.rows, List.forall_mem_append, List.forall_mem_singleton,
        satisfied_comparisons_iff operands value, satisfied_compare_iff value (means_sum operands)]
      exact Iff.rfl
  | ifThenElse c t f =>
      obtain ⟨b, _, hb, none, rfl⟩ := List.forall₂_cons_left_iff.mp hs
      obtain rfl := List.forall₂_nil_left_iff.mp none
      have switch := means_var hb
      have off := means_offWhile switch M
      have on := switch.scale M
      simp only [Gadget.rows, List.forall_mem_cons, List.not_mem_nil, false_imp_iff,
        implies_true, and_true, satisfied_compare_iff switch c,
        satisfied_compare_iff value (t.add off), satisfied_compare_iff value (t.subtract off),
        satisfied_compare_iff value (f.add on), satisfied_compare_iff value (f.subtract on)]
      constructor
      · intro rows
        exact ⟨b, rfl, rows⟩
      · rintro ⟨_, same, rows⟩
        obtain rfl := List.singleton_inj.mp same
        exact rows
  | piecewise shape argument =>
      have switches := means_vars hs
      rw [Gadget.rows, List.forall_mem_cons,
        satisfied_compare_iff (means_sum switches) (means_constant 1),
        satisfied_allPieceRows_iff value argument switches]
      exact Iff.rfl

end MipModel
