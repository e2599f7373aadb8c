import MipModel.Proofs.Enclosures
import MipModel.Proofs.Soundness

/-!
# Constants that cover

A row that is switched off must not cut anything off, so the constant of a gadget has to cover the
gaps between the value of the gadget and what the inactive rows demand (`Gadget.Covered`). A
constant that is derived from the bounds of variables does (`covered_of_derived`). The constant of
the settings is used where nothing can be derived (`Gadget.FallsBack`), and whether it covers
depends on the settings.

For a piecewise function the gaps are those between segments, each continued over the range of the
argument, and those between the argument and the domains of segments. The segments follow one
another, so the last start and the first end are the extreme ones.
-/

namespace MipModel

namespace Piecewise

theorem pairwise_of_ascending {xs : List Rat} (h : ascending xs = true) :
    xs.Pairwise (· < ·) := by
  rw [← List.isChain_iff_pairwise]
  induction xs with
  | nil => exact .nil
  | cons a xs ih =>
      cases xs with
      | nil => exact .singleton a
      | cons b rest =>
          simp only [ascending, Bool.and_eq_true, Bool.not_eq_true', decide_eq_false_iff_not,
            not_le, ge_iff_le] at h
          exact .cons_cons h.1 (ih h.2)

theorem le_of_index_le {xs : List Rat} (h : xs.Pairwise (· < ·)) {i j : Nat} {a b : Rat}
    (ha : xs[i]? = some a) (hb : xs[j]? = some b) (le : i ≤ j) : a ≤ b := by
  obtain ⟨hi, rfl⟩ := List.getElem?_eq_some_iff.mp ha
  obtain ⟨hj, rfl⟩ := List.getElem?_eq_some_iff.mp hb
  obtain rfl | less := Nat.eq_or_lt_of_le le
  · exact le_rfl
  · exact (List.pairwise_iff_getElem.mp h i j hi hj less).le

variable {shape : Piecewise Rat} {piece : Piece Rat}

/-- The data of a segment stand at the same place of the lists. -/
theorem exists_index_of_mem_pieces (member : piece ∈ shape.pieces) : ∃ i < shape.size,
    shape.breakpoints[i]? = some piece.start ∧ shape.breakpoints[i + 1]? = some piece.stop ∧
      (piece.slope, piece.intercept) ∈ shape.slopes.zip shape.intercepts := by
  obtain ⟨i, found⟩ := List.mem_iff_getElem?.mp member
  rw [pieces, List.getElem?_map] at found
  obtain ⟨⟨⟨a, b⟩, c, d⟩, zipped, rfl⟩ := Option.map_eq_some_iff.mp found
  obtain ⟨ends, line⟩ := List.getElem?_zip_eq_some.mp zipped
  obtain ⟨start, stop⟩ := List.getElem?_zip_eq_some.mp ends
  obtain ⟨slope, intercept⟩ := List.getElem?_zip_eq_some.mp line
  rw [List.getElem?_tail] at stop
  obtain ⟨bound, -⟩ := List.getElem?_eq_some_iff.mp slope
  exact ⟨i, bound, start, stop, List.mem_iff_getElem?.mpr ⟨i, line⟩⟩

def InDomain (shape : Piecewise Rat) (x : Rat) : Prop :=
  (∀ a, shape.breakpoints.head? = some a → a ≤ x) ∧
    ∀ b, shape.breakpoints.getLast? = some b → x ≤ b

/-- Between the ends of a list, a number lies between two neighbours. -/
theorem exists_neighbours {x : Rat} : ∀ (a b : Rat) (rest : List Rat), a ≤ x →
    (∀ c, (a :: b :: rest).getLast? = some c → x ≤ c) →
      ∃ i c d, (a :: b :: rest)[i]? = some c ∧ (a :: b :: rest)[i + 1]? = some d ∧ c ≤ x ∧ x ≤ d
  | a, b, [], lower, upper => ⟨0, a, b, rfl, rfl, lower, upper b rfl⟩
  | a, b, b' :: rest, lower, upper => by
    obtain le | less := le_or_gt x b
    · exact ⟨0, a, b, rfl, rfl, lower, le⟩
    · obtain ⟨i, c, d, hc, hd, between⟩ := exists_neighbours b b' rest less.le fun c last =>
        upper c (by rw [List.getLast?_cons_cons]; exact last)
      exact ⟨i + 1, c, d, hc, hd, between⟩

/-- Every argument in the domain is covered by a segment. -/
theorem exists_covers (checked : shape.check = .ok ()) {x : Rat} (inDomain : shape.InDomain x) :
    ∃ piece ∈ shape.pieces, piece.Covers x := by
  obtain ⟨nonempty, intercepts, breakpoints, -⟩ := lengths_of_check checked
  obtain ⟨a, b, rest, split⟩ : ∃ a b rest, shape.breakpoints = a :: b :: rest := by
    rcases h : shape.breakpoints with _ | ⟨a, _ | ⟨b, rest⟩⟩
    · simp [h] at breakpoints
    · simp [h] at breakpoints
      omega
    · exact ⟨a, b, rest, rfl⟩
  obtain ⟨i, start, stop, hstart, hstop, covers⟩ := exists_neighbours a b rest
    (inDomain.1 a (by rw [split]; rfl)) fun c last => inDomain.2 c (by rw [split]; exact last)
  rw [← split] at hstart hstop
  obtain ⟨bound, -⟩ := List.getElem?_eq_some_iff.mp hstop
  have slope : i < shape.slopes.length := by
    unfold size at breakpoints
    omega
  have intercept : i < shape.intercepts.length := by
    unfold size at breakpoints intercepts
    omega
  refine ⟨⟨start, stop, shape.slopes[i], shape.intercepts[i]⟩, ?_, covers⟩
  refine List.mem_iff_getElem?.mpr ⟨i, ?_⟩
  rw [pieces, List.getElem?_map]
  refine Option.map_eq_some_iff.mpr ⟨((start, stop), shape.slopes[i], shape.intercepts[i]), ?_, rfl⟩
  refine List.getElem?_zip_eq_some.mpr ⟨List.getElem?_zip_eq_some.mpr ⟨hstart, ?_⟩,
    List.getElem?_zip_eq_some.mpr ⟨List.getElem?_eq_getElem slope,
      List.getElem?_eq_getElem intercept⟩⟩
  rw [List.getElem?_tail]
  exact hstop

end Piecewise

namespace Gadget

/-- The operands are ones for which a construct is meant: truth values where these are combined or
decide, and arguments in the domain of a function. -/
def Proper : Gadget Rat Rat → Prop
  | .and xs | .or xs => Binary xs
  | .ifThenElse c _ _ => c = 0 ∨ c = 1
  | .piecewise x shape => shape.InDomain x
  | _ => True

/-- A constant covers the gaps between the value of a gadget and what its inactive rows demand. -/
def Covered (rule : SegmentRule) (M : Rat) : Gadget Rat Rat → Prop
  | .ifThenElse _ t f => |t - f| ≤ M
  | .piecewise x shape => ∀ piece ∈ shape.pieces,
    |(rule.pick shape x).valueAt x - piece.valueAt x| ≤ M ∧
      piece.start - x ≤ M ∧ x - piece.stop ≤ M
  | _ => True

/-- The constant of the gadget is the one of the settings, because none can be derived. -/
def FallsBack (s : Settings Rat) (vars : Registry (Variable Rat)) :
    Gadget (Polynomial Rat) Rat → Prop
  | .ifThenElse _ t f =>
    s.deriveBigM = false ∨ Enclosure.ofPolynomial? vars (t.subtract f) = none
  | .piecewise e _ => s.deriveBigM = false ∨ Enclosure.ofPolynomial? vars e = none
  | _ => True

theorem bigM_of_fallsBack {s : Settings Rat} {vars : Registry (Variable Rat)}
    {g : Gadget (Polynomial Rat) Rat} (h : g.FallsBack s vars) : g.bigM s vars = s.bigM := by
  cases g with
  | ifThenElse c t f =>
      simp only [bigM, BigM.forDifference]
      obtain off | none := h
      · simp [off]
      · simp [none]
  | piecewise e shape =>
      simp only [bigM, BigM.forPiecewise]
      obtain off | none := h
      · simp [off]
      · split
        · rfl
        · split
          next known =>
            rw [none] at known
            cases known
          next => rfl
  | _ => rfl

end Gadget

namespace BigM

variable {shape : Piecewise Rat} {piece : Piece Rat} {range : Enclosure Rat} {x : Rat}

/-- Over a range, every segment stays between the least and the greatest end value. -/
theorem valueAt_between (member : piece ∈ shape.pieces) (contained : range.Contains x) :
    Scalar.leastOf (segmentValues shape range) ≤ piece.valueAt x ∧
      piece.valueAt x ≤ Scalar.greatestOf (segmentValues shape range) := by
  obtain ⟨-, -, -, -, line⟩ := Piecewise.exists_index_of_mem_pieces member
  have lower : piece.slope * range.lower + piece.intercept ∈ segmentValues shape range :=
    List.mem_flatMap.mpr ⟨_, line, List.mem_cons_self⟩
  have upper : piece.slope * range.upper + piece.intercept ∈ segmentValues shape range :=
    List.mem_flatMap.mpr ⟨_, line, List.mem_cons_of_mem _ List.mem_cons_self⟩
  have leastLower := Rational.leastOf_le lower
  have leastUpper := Rational.leastOf_le upper
  have greatestLower := Rational.le_greatestOf lower
  have greatestUpper := Rational.le_greatestOf upper
  unfold Piece.valueAt
  rw [mul_comm]
  constructor
  · have := le_mul_of_ends (y := piece.slope) contained.1 contained.2
      (z := Scalar.leastOf (segmentValues shape range) - piece.intercept)
      (by linarith) (by linarith)
    linarith
  · have := mul_le_of_ends (y := piece.slope) contained.1 contained.2
      (z := Scalar.greatestOf (segmentValues shape range) - piece.intercept)
      (by linarith) (by linarith)
    linarith

/-- The derived constant covers the distances between segments and from their domains. -/
theorem le_cover (checked : shape.check = .ok ()) {lastStart firstEnd : Rat}
    (hlast : lastStart? shape = some lastStart) (hfirst : shape.breakpoints[1]? = some firstEnd)
    (contained : range.Contains x) {picked : Piece Rat} (pick : picked ∈ shape.pieces)
    (member : piece ∈ shape.pieces) :
    |picked.valueAt x - piece.valueAt x| ≤ cover shape lastStart firstEnd range ∧
      piece.start - x ≤ cover shape lastStart firstEnd range ∧
        x - piece.stop ≤ cover shape lastStart firstEnd range := by
  obtain ⟨-, -, -, ascends⟩ := Piecewise.lengths_of_check checked
  have ascending := Piecewise.pairwise_of_ascending ascends
  obtain ⟨i, bound, start, stop, -⟩ := Piecewise.exists_index_of_mem_pieces member
  have startLe : piece.start ≤ lastStart := by
    unfold lastStart? at hlast
    rw [if_neg (by omega)] at hlast
    exact Piecewise.le_of_index_le ascending start hlast (by omega)
  have leStop : firstEnd ≤ piece.stop :=
    Piecewise.le_of_index_le ascending hfirst stop (by omega)
  obtain ⟨least, greatest⟩ := valueAt_between member contained
  obtain ⟨least', greatest'⟩ := valueAt_between pick contained
  obtain ⟨lower, upper⟩ := contained
  -- The constant is the greatest of three numbers, the last of which only keeps it above zero.
  obtain ⟨inner, -⟩ := Rational.le_greatest (Rational.greatest
    (Scalar.greatestOf (segmentValues shape range) - Scalar.leastOf (segmentValues shape range))
    (Rational.greatest (lastStart - range.lower) (range.upper - firstEnd))) 0
  obtain ⟨gap, outside⟩ := Rational.le_greatest
    (Scalar.greatestOf (segmentValues shape range) - Scalar.leastOf (segmentValues shape range))
    (Rational.greatest (lastStart - range.lower) (range.upper - firstEnd))
  obtain ⟨before, after⟩ := Rational.le_greatest (lastStart - range.lower) (range.upper - firstEnd)
  refine ⟨le_trans ?_ (gap.trans inner), le_trans ?_ (outside.trans inner),
    le_trans ?_ (outside.trans inner)⟩
  · exact abs_le.mpr ⟨by linarith, by linarith⟩
  · linarith
  · linarith

theorem cover_nonneg (lastStart firstEnd : Rat) : 0 ≤ cover shape lastStart firstEnd range :=
  (Rational.le_greatest _ _).2

variable {s : Settings Rat} {vars : Registry (Variable Rat)} {e : Polynomial Rat}

/-- The constant for a difference with an enclosure covers all numbers in it. -/
theorem abs_le_forDifference (derive : s.deriveBigM = true)
    (enclosed : Enclosure.ofPolynomial? vars e = some range) (contained : range.Contains x) :
    |x| ≤ forDifference s vars e := by
  simp only [forDifference, derive, enclosed, Bool.not_true, Bool.false_eq_true, if_false,
    Rational.scalarAbs_eq]
  obtain ⟨left, right⟩ := Rational.le_greatest |range.lower| |range.upper|
  exact (abs_le_max_abs_abs contained.1 contained.2).trans (max_le left right)

/-- For a function of the right shape and an argument with an enclosure, a constant is derived. -/
theorem forPiecewise_eq_cover (checked : shape.check = .ok ()) (derive : s.deriveBigM = true)
    (enclosed : Enclosure.ofPolynomial? vars e = some range) : ∃ lastStart firstEnd,
      lastStart? shape = some lastStart ∧ shape.breakpoints[1]? = some firstEnd ∧
        forPiecewise s vars e shape = cover shape lastStart firstEnd range := by
  obtain ⟨nonempty, -, breakpoints, -⟩ := Piecewise.lengths_of_check checked
  obtain ⟨lastStart, hlast⟩ : ∃ a, lastStart? shape = some a := by
    unfold lastStart?
    rw [if_neg nonempty]
    exact ⟨_, List.getElem?_eq_getElem (by omega)⟩
  obtain ⟨firstEnd, hfirst⟩ : ∃ b, shape.breakpoints[1]? = some b :=
    ⟨_, List.getElem?_eq_getElem (by omega)⟩
  exact ⟨lastStart, firstEnd, hlast, hfirst, by
    simp [forPiecewise, derive, hlast, hfirst, enclosed]⟩

/-- The constant for a piecewise function covers what the inactive segments demand. -/
theorem le_forPiecewise (checked : shape.check = .ok ()) (derive : s.deriveBigM = true)
    (enclosed : Enclosure.ofPolynomial? vars e = some range) (contained : range.Contains x)
    {picked : Piece Rat} (pick : picked ∈ shape.pieces) (member : piece ∈ shape.pieces) :
    |picked.valueAt x - piece.valueAt x| ≤ forPiecewise s vars e shape ∧
      piece.start - x ≤ forPiecewise s vars e shape ∧
        x - piece.stop ≤ forPiecewise s vars e shape := by
  obtain ⟨lastStart, firstEnd, hlast, hfirst, eq⟩ := forPiecewise_eq_cover checked derive enclosed
  rw [eq]
  exact le_cover checked hlast hfirst contained pick member

end BigM

/-- A constant that is derived from the bounds of variables covers. -/
theorem Gadget.covered_of_derived {s : Settings Rat} {vars : Registry (Variable Rat)}
    {v : Assignment Rat} {g : Gadget (Polynomial Rat) Rat} {g' : Gadget Rat Rat}
    (derived : ¬ g.FallsBack s vars) (shaped : g.WellShaped)
    (respects : Enclosure.Respects v vars) (related : g.Related (Polynomial.Means v) g')
    (proper : g'.Proper) (rule : SegmentRule) : g'.Covered rule (g.bigM s vars) := by
  cases related with
  | @ifThenElse c t f c' t' f' _ means means' =>
      simp only [FallsBack, not_or, Bool.not_eq_false] at derived
      obtain ⟨range, known⟩ := Option.ne_none_iff_exists'.mp derived.2
      exact BigM.abs_le_forDifference derived.1 known
        (Enclosure.contains_ofPolynomial? respects known (means.subtract means'))
  | @piecewise e x shape means =>
      simp only [FallsBack, not_or, Bool.not_eq_false] at derived
      obtain ⟨range, known⟩ := Option.ne_none_iff_exists'.mp derived.2
      have contained := Enclosure.contains_ofPolynomial? respects known means
      obtain ⟨pick, -⟩ := rule.covers shape x (Piecewise.exists_covers shaped proper)
      exact fun piece member =>
        BigM.le_forPiecewise shaped derived.1 known contained pick member
  | _ => trivial

end MipModel
