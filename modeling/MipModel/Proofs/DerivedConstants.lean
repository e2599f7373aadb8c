import MipModel.Proofs.Coverage

/-!
# Constants derived from bounds

Interval arithmetic gives a polynomial an enclosure exactly if all its variables are registered with
two finite bounds, and within these bounds the polynomial takes its values in the enclosure
(`enclosure_of_polynomial`). Nothing else has to be known of the assignment: it need not be
feasible, and other variables need not have values.

So the constants that are derived from enclosures cover what they are meant for: the magnitude of a
difference, and for a piecewise function the gaps between any two segments and between the argument
and the domain of any segment (`forPiecewise_covers`).
-/

namespace MipModel

section Bounded

variable {α : Type} [Scalar α]

def Variable.Bounded (u : Variable α) : Prop :=
  ∃ lo hi, u.lower = some lo ∧ u.upper = some hi ∧
    Scalar.isFinite lo = true ∧ Scalar.isFinite hi = true

theorem Variable.isSome_finiteBounds? {u : Variable α} :
    u.finiteBounds?.isSome = true ↔ u.Bounded := by
  unfold finiteBounds? Bounded
  rcases u.lower with _ | lo <;> rcases u.upper with _ | hi <;> simp

/-- The variable of a name is registered and has two bounds of finite size. -/
def Registry.Bounds (vars : Registry (Variable α)) (x : String) : Prop :=
  ∃ u, vars.find? x = some u ∧ u.Bounded

namespace Enclosure

variable {vars : Registry (Variable α)}

/-- A loop that combines optional values needs all of them. -/
theorem isSome_foldlM {β γ δ : Type} {f : γ → Option δ} {g : β → δ → β} (xs : List γ) (init : β) :
    (xs.foldlM (fun b x => do return g b (← f x)) init).isSome = true ↔
      ∀ x ∈ xs, (f x).isSome = true := by
  induction xs generalizing init with
  | nil => simp
  | cons x xs ih =>
      rw [List.foldlM_cons, List.forall_mem_cons]
      cases f x with
      | none => simp
      | some d => simpa using ih (g init d)

theorem isSome_ofVariable? {x : String} :
    (ofVariable? vars x).isSome = true ↔ vars.Bounds x := by
  unfold ofVariable? Registry.Bounds
  cases vars.find? x with
  | none => simp
  | some u =>
      simp only [Option.some.injEq, exists_eq_left', ← Variable.isSome_finiteBounds?]
      rcases known : u.finiteBounds? with _ | bounds <;> simp [known]

theorem isSome_ofTerm? {m : Monomial} {c : α} :
    (ofTerm? vars m c).isSome = true ↔ ∀ x ∈ m.names, vars.Bounds x := by
  have factors := isSome_foldlM (f := ofVariable? vars) (g := mul) m.names (point 1)
  simp only [isSome_ofVariable?] at factors
  rw [← factors, ofTerm?]
  cases m.names.foldlM (fun range name => return range.mul (← ofVariable? vars name)) (point 1) <;>
    rfl

/-- A polynomial has an enclosure if all its variables have bounds. -/
theorem isSome_ofPolynomial? {p : Polynomial α} :
    (ofPolynomial? vars p).isSome = true ↔ p.Over vars.Bounds := by
  have terms := isSome_foldlM (f := fun t => ofTerm? vars t.1 t.2) (g := add) p.toList (point 0)
  simp only [isSome_ofTerm?] at terms
  rw [ofPolynomial?, terms]
  simp [Polynomial.Over, Polynomial.toList, SortedTable.keys]

end Enclosure

end Bounded

section Within

variable {vars : Registry (Variable Rat)} {v : Assignment Rat} {p : Polynomial Rat}

theorem Assignment.within_of_entries (h : ∀ e ∈ vars.entries, ∀ a ∈ v e.1,
    (∀ lo ∈ e.2.lower, lo ≤ a) ∧ ∀ hi ∈ e.2.upper, a ≤ hi) : v.Within vars :=
  fun x u a found value => h (x, u) (Registry.mem_of_find? found) a value

/-- Within the bounds of its variables a polynomial has a value, in its enclosure. -/
theorem Enclosure.exists_evaluate {range : Enclosure Rat}
    (enclosed : Enclosure.ofPolynomial? vars p = some range) (assigned : p.Over v.Assigns)
    (within : v.Within vars) : ∃ y, p.evaluate v = .ok y ∧ range.Contains y :=
  ⟨p.value v.total, Polynomial.evaluate_eq_ok_iff.mpr ⟨assigned, rfl⟩,
    contains_value (assigned.mono fun _ => within.confines) enclosed⟩

end Within

section Rationals

variable {vars : Registry (Variable Rat)}

/-- A rational number is of finite size, so two bounds are enough. -/
theorem Variable.bounded_iff {u : Variable Rat} : u.Bounded ↔ u.lower ≠ none ∧ u.upper ≠ none := by
  unfold Bounded
  rcases u.lower with _ | lo <;> rcases u.upper with _ | hi <;> simp [Scalar.isFinite]

theorem Registry.not_bounds {x : String} : ¬ vars.Bounds x ↔
    vars.find? x = none ∨ ∃ u, vars.find? x = some u ∧ (u.lower = none ∨ u.upper = none) := by
  unfold Bounds
  cases vars.find? x with
  | none => simp
  | some u =>
      simp only [Option.some.injEq, exists_eq_left', Variable.bounded_iff, reduceCtorEq, false_or]
      tauto

/-- A polynomial has no enclosure exactly if one of its variables is not registered or lacks a bound.
If it has one, then within the bounds of its variables it takes its values there, and the constant
that is derived for it as a difference covers their magnitudes. -/
theorem enclosure_of_polynomial (s : Settings Rat) (vars : Registry (Variable Rat))
    (p : Polynomial Rat) :
    (Enclosure.ofPolynomial? vars p = none ↔ ∃ x ∈ p.occurrences,
      vars.find? x = none ∨ ∃ u, vars.find? x = some u ∧ (u.lower = none ∨ u.upper = none)) ∧
    ∀ range, Enclosure.ofPolynomial? vars p = some range →
      ∀ v : Assignment Rat, p.Over v.Assigns → v.Within vars →
        ∃ y, p.evaluate v = .ok y ∧ range.lower ≤ y ∧ y ≤ range.upper ∧
          (s.deriveBigM = true → |y| ≤ BigM.forDifference s vars p) := by
  constructor
  · rw [← Option.not_isSome_iff_eq_none, Enclosure.isSome_ofPolynomial?,
      Polynomial.over_iff_occurrences]
    simp only [not_forall, exists_prop, Registry.not_bounds]
  · intro range enclosed v assigned within
    obtain ⟨y, value, contained⟩ := Enclosure.exists_evaluate enclosed assigned within
    exact ⟨y, value, contained.1, contained.2, fun derive =>
      BigM.abs_le_forDifference derive enclosed contained⟩

/-- A cubic polynomial is enclosed: the square ranges over `[-6, 9]`, the product of all factors over
`[-24, 36]`, and the negative coefficient turns this around. -/
theorem cubic_enclosed :
    let vars : Registry (Variable Rat) :=
      ⟨[("x", ⟨"x", .continuous, some (-2), some 3⟩), ("y", ⟨"y", .integer, some (-1), some 4⟩),
        ("z", ⟨"z", .continuous, some 0, none⟩)]⟩
    let p : Polynomial Rat := .ofTerms [(⟨["x", "x", "y"]⟩, -2), (⟨["y"]⟩, 1)]
    let v : Assignment Rat := fun name =>
      if name = "x" then some 3 else if name = "y" then some 4 else none
    Enclosure.ofPolynomial? vars (.var "z") = none ∧
      Enclosure.ofPolynomial? vars p = some ⟨-73, 52⟩ ∧
      ∃ a, p.evaluate v = .ok a ∧ -73 ≤ a ∧ a ≤ 52 ∧
        |a| ≤ BigM.forDifference .standard vars p := by
  intro vars p v
  have unbounded := (enclosure_of_polynomial .standard vars (.var "z")).1.mpr
    ⟨"z", by decide +kernel, .inr ⟨⟨"z", .continuous, some 0, none⟩, by decide +kernel, .inr rfl⟩⟩
  have enclosed : Enclosure.ofPolynomial? vars p = some ⟨-73, 52⟩ := by decide +kernel
  have assigned : p.Over v.Assigns := Polynomial.over_iff_occurrences.mpr
    (by decide +kernel : ∀ x ∈ p.occurrences, (v x).isSome = true)
  have within : v.Within vars := Assignment.within_of_entries (by decide +kernel)
  obtain ⟨a, value, lower, upper, covers⟩ :=
    (enclosure_of_polynomial .standard vars p).2 ⟨-73, 52⟩ enclosed v assigned within
  exact ⟨unbounded, enclosed, a, value, lower, upper, covers rfl⟩

/-- The constant that is derived for a piecewise function covers, wherever the bounds of the
variables allow the argument to be, the gap between any two segments and the gap between the argument
and the domain of any segment. -/
theorem forPiecewise_covers {s : Settings Rat} (derive : s.deriveBigM = true)
    {shape : Piecewise Rat} (checked : shape.check = .ok ()) {e : Polynomial Rat}
    (bounded : e.Over vars.Bounds) {v : Assignment Rat} (assigned : e.Over v.Assigns)
    (within : v.Within vars) :
    ∃ x, e.evaluate v = .ok x ∧ 0 ≤ BigM.forPiecewise s vars e shape ∧
      shape.pieces.length = shape.size ∧
      ∀ piece ∈ shape.pieces,
        piece.start - x ≤ BigM.forPiecewise s vars e shape ∧
        x - piece.stop ≤ BigM.forPiecewise s vars e shape ∧
        ∀ other ∈ shape.pieces,
          |(piece.slope * x + piece.intercept) - (other.slope * x + other.intercept)| ≤
            BigM.forPiecewise s vars e shape := by
  obtain ⟨range, enclosed⟩ :=
    Option.isSome_iff_exists.mp (Enclosure.isSome_ofPolynomial?.mpr bounded)
  obtain ⟨x, value, contained⟩ := Enclosure.exists_evaluate enclosed assigned within
  have covers {piece other : Piece Rat} (member : piece ∈ shape.pieces)
      (member' : other ∈ shape.pieces) :=
    BigM.le_forPiecewise checked derive enclosed contained member' member
  refine ⟨x, value, ?_, Piecewise.length_pieces checked, fun piece member => ?_⟩
  · obtain ⟨lastStart, firstEnd, -, -, eq⟩ := BigM.forPiecewise_eq_cover checked derive enclosed
    rw [eq]
    exact BigM.cover_nonneg lastStart firstEnd
  · exact ⟨(covers member member).2.1, (covers member member).2.2, fun other member' =>
      (covers member' member).1⟩

/-- Two segments that cross, and an argument beyond the last breakpoint: the constant is the gap
between the segments at the other end of the range. -/
theorem crossing_segments_covered :
    let vars : Registry (Variable Rat) :=
      ⟨[("x", ⟨"x", .continuous, some (-3), some 4⟩), ("y", ⟨"y", .integer, some 0, some 2⟩)]⟩
    let e : Polynomial Rat := .ofTerms [(⟨["x"]⟩, 1), (⟨["y"]⟩, -1)]
    let shape : Piecewise Rat := ⟨[0, 1, 3], [-2, 1], [4, -1]⟩
    let v : Assignment Rat := fun name =>
      if name = "x" then some 4 else if name = "y" then some 0 else none
    BigM.forPiecewise .standard vars e shape = 20 ∧
      ∃ x, e.evaluate v = .ok x ∧ 0 ≤ BigM.forPiecewise .standard vars e shape ∧
        shape.pieces.length = shape.size ∧
        ∀ piece ∈ shape.pieces,
          piece.start - x ≤ BigM.forPiecewise .standard vars e shape ∧
          x - piece.stop ≤ BigM.forPiecewise .standard vars e shape ∧
          ∀ other ∈ shape.pieces,
            |(piece.slope * x + piece.intercept) - (other.slope * x + other.intercept)| ≤
              BigM.forPiecewise .standard vars e shape := by
  intro vars e shape v
  have bounded : e.Over vars.Bounds := Enclosure.isSome_ofPolynomial?.mp (by decide +kernel)
  have assigned : e.Over v.Assigns := Polynomial.over_iff_occurrences.mpr
    (by decide +kernel : ∀ x ∈ e.occurrences, (v x).isSome = true)
  have within : v.Within vars := Assignment.within_of_entries (by decide +kernel)
  exact ⟨by decide +kernel, forPiecewise_covers rfl (by rfl) bounded assigned within⟩

end Rationals

end MipModel
