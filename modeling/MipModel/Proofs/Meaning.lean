import MipModel.Proofs.Compilation
import MipModel.Proofs.Valuation

/-!
# Numeric meaning

The reading of expressions by rationals under an assignment. Arithmetic means what it means for
rationals; what a construct means is a parameter, because three meanings play a part:

* the exact one (`Gadget.Exact`), under which a piecewise function may take the value of either
  adjacent segment at a breakpoint;
* the one that an encoding enforces (`Gadget.Enforced`), which bounds magnitudes, maxima and minima
  from one side only;
* exact ones in which a rule settles the choice at breakpoints (`Gadget.Selected`).

A reading by polynomials is carried over to numbers by evaluating the polynomials.
-/

namespace MipModel

/-- The reading of expressions by numbers, given the meaning of constructs. -/
def numbers (v : Assignment Rat) (M : Gadget Rat Rat → Rat → Prop) : Interpretation Rat Rat where
  constant c := c
  polynomial p x := p.evaluate v = .ok x
  zero := 0
  add := (· + ·)
  sub := (· - ·)
  mul := (· * ·)
  neg := (- ·)
  div x y z := y ≠ 0 ∧ z = x / y
  construct := M

namespace Piece

/-- Whether an argument belongs to the segment, ends included. -/
def Covers (piece : Piece Rat) (x : Rat) : Prop := piece.start ≤ x ∧ x ≤ piece.stop

instance (piece : Piece Rat) (x : Rat) : Decidable (piece.Covers x) :=
  inferInstanceAs (Decidable (_ ∧ _))

/-- The value of the segment, continued to all arguments. -/
def valueAt (piece : Piece Rat) (x : Rat) : Rat := piece.slope * x + piece.intercept

end Piece

def Binary (xs : List Rat) : Prop := ∀ x ∈ xs, x = 0 ∨ x = 1

theorem exists_greatest {zs : List Rat} (nonempty : zs ≠ []) : ∃ z ∈ zs, ∀ x ∈ zs, x ≤ z := by
  obtain ⟨z, hz⟩ := WithBot.ne_bot_iff_exists.mp (List.maximum_ne_bot_of_ne_nil nonempty)
  exact ⟨z, List.maximum_eq_coe_iff.mp hz.symm⟩

theorem exists_least {zs : List Rat} (nonempty : zs ≠ []) : ∃ z ∈ zs, ∀ x ∈ zs, z ≤ x := by
  obtain ⟨z, hz⟩ := WithTop.ne_top_iff_exists.mp (List.minimum_ne_top_of_ne_nil nonempty)
  exact ⟨z, List.minimum_eq_coe_iff.mp hz.symm⟩

/-- A choice of a segment for every argument that some segment covers. -/
structure SegmentRule where
  pick : Piecewise Rat → Rat → Piece Rat
  covers (shape : Piecewise Rat) (x : Rat) : (∃ piece ∈ shape.pieces, piece.Covers x) →
    pick shape x ∈ shape.pieces ∧ (pick shape x).Covers x

def SegmentRule.first : SegmentRule where
  pick shape x := (shape.pieces.find? fun piece => piece.Covers x).getD ⟨0, 0, 0, 0⟩
  covers shape x := by
    rintro ⟨piece, member, covers⟩
    cases found : shape.pieces.find? fun piece => piece.Covers x with
    | none => exact absurd (decide_eq_true covers) (List.find?_eq_none.mp found piece member)
    | some first =>
        have covered := List.find?_some found
        exact ⟨List.mem_of_find?_eq_some found, of_decide_eq_true covered⟩

namespace Gadget

/-- The value of a construct. Conjunctions and disjunctions are settled for truth values only. -/
def Exact : Gadget Rat Rat → Rat → Prop
  | .abs x, y => y = |x|
  | .max xs, y => y ∈ xs ∧ ∀ x ∈ xs, x ≤ y
  | .min xs, y => y ∈ xs ∧ ∀ x ∈ xs, y ≤ x
  | .and xs, y => Binary xs → y = if ∀ x ∈ xs, x = 1 then 1 else 0
  | .or xs, y => Binary xs → y = if ∃ x ∈ xs, x = 1 then 1 else 0
  | .ifThenElse c t f, y => (c = 1 ∧ y = t) ∨ (c = 0 ∧ y = f)
  | .piecewise x shape, y => ∃ piece ∈ shape.pieces, piece.Covers x ∧ y = piece.valueAt x

/-- What the rows of a construct enforce. -/
def Enforced : Gadget Rat Rat → Rat → Prop
  | .abs x, y => |x| ≤ y
  | .max xs, y => ∀ x ∈ xs, x ≤ y
  | .min xs, y => ∀ x ∈ xs, y ≤ x
  | g, y => g.Exact y

/-- The value of a construct when a rule chooses among segments. -/
def Selected (rule : SegmentRule) : Gadget Rat Rat → Rat → Prop
  | .piecewise x shape, y =>
    (∃ piece ∈ shape.pieces, piece.Covers x) ∧ y = (rule.pick shape x).valueAt x
  | g, y => g.Exact y

theorem Selected.exact {rule : SegmentRule} {g : Gadget Rat Rat} {y : Rat}
    (h : g.Selected rule y) : g.Exact y := by
  cases g with
  | piecewise x shape =>
      obtain ⟨covered, rfl⟩ := h
      obtain ⟨member, covers⟩ := rule.covers shape x covered
      exact ⟨_, member, covers, rfl⟩
  | _ => exact h

end Gadget

open MipModel.Polynomial

/-- Evaluation carries a reading by polynomials over to numbers. The polynomials that the
expression is made of may be evaluated under an assignment that knows fewer variables. -/
theorem simulates_numbers {K : Gadget (Polynomial Rat) Rat → Polynomial Rat → Prop}
    {M : Gadget Rat Rat → Rat → Prop} {C : Construct → Prop} {v w : Assignment Rat}
    (continues : v.Continues w)
    (construct : ∀ {g g' p}, C g.construct → g.Related (Means w) g' → K g p →
      ∃ y, M g' y ∧ p.Means w y) :
    Simulates (Means w) (HasValue v) C (polynomials K) (numbers v M) where
  constant c := means_constant c
  polynomial {p q} hasValue same := by
    obtain ⟨y, means⟩ := hasValue.exists_means
    obtain rfl : q = p := same
    exact ⟨y, means.2, means.mono continues⟩
  zero := means_zero
  add := Means.add
  sub := Means.subtract
  mul := Means.multiply
  neg := Means.negate
  div first second quotient := by
    obtain ⟨nonzero, means⟩ := first.divide second quotient
    exact ⟨_, ⟨nonzero, rfl⟩, means⟩
  construct used related stands := construct used related stands

section Supply

variable {α : Type} [Scalar α] {families : Families α} {vars : Registry (Variable α)}
  {p : Polynomial α}

theorem Polynomial.IsVariableOf.ordered (h : p.IsVariableOf vars) : p.Ordered := by
  obtain ⟨x, isVariable, -⟩ := h
  rw [Ordered, SortedTable.Ordered, isVariable.keys]
  exact List.pairwise_singleton _ _

theorem Polynomial.IsVariableOf.over (h : p.IsVariableOf vars) :
    p.Over fun x => vars.contains x = true := by
  obtain ⟨x, isVariable, registered⟩ := h
  intro m hm y hy
  rw [isVariable.keys, List.mem_singleton] at hm
  subst hm
  obtain rfl := List.mem_singleton.mp hy
  exact registered

theorem SortedTable.mem_of_find? {κ β : Type} [DecidableEq κ] {t : SortedTable κ β} {k : κ} {b : β}
    (h : t.find? k = some b) : (k, b) ∈ t.entries := by
  obtain ⟨⟨k', b⟩, found, rfl⟩ := Option.map_eq_some_iff.mp h
  obtain rfl : k' = k := by simpa using List.find?_some found
  exact List.mem_of_find?_eq_some found

theorem SortedTable.mem_values_of_find? {κ β : Type} [DecidableEq κ] {t : SortedTable κ β} {k : κ}
    {b : β} (h : t.find? k = some b) : b ∈ t.values :=
  List.mem_map_of_mem (mem_of_find? h)

omit [Scalar α] in
theorem Family.mem_values_of_lookup {f : Family α} {index : Index} (h : f.lookup index = .ok p) :
    p ∈ f.members.values := by
  have find (h : Family.lookup.find f index = .ok p) : p ∈ f.members.values := by
    unfold Family.lookup.find at h
    split at h
    next found =>
      cases h
      exact SortedTable.mem_values_of_find? found
    next => cases h
  unfold Family.lookup at h
  split at h
  · split at h
    · cases h
    · exact find h
  · exact find h

omit [Scalar α] in
theorem Families.find?_of_lookup {name : String} {f : Family α}
    (h : families.lookup name = .ok f) : families.find? name = some f := by
  unfold Families.lookup at h
  split at h
  next stored =>
    cases h
    exact stored
  next => cases h

omit [Scalar α] in
theorem Families.mem_values_of_lookup {name : String} {f : Family α}
    (h : families.lookup name = .ok f) : f ∈ families.values :=
  SortedTable.mem_values_of_find? (find?_of_lookup h)

omit [Scalar α] in
theorem Family.mem_values_of_fitting {f : Family α} {pattern : Pattern}
    (h : p ∈ (f.fitting pattern).map Prod.snd) : p ∈ f.members.values := by
  obtain ⟨e, he, rfl⟩ := List.mem_map.mp h
  exact List.mem_map_of_mem (List.mem_filter.mp he).1

/-- A reference stands for a member of its family or for a sum of members. -/
theorem Families.exists_of_resolve {name : String} {indices : List (IndexExpr α)} {scope : Scope α}
    (resolved : families.resolve name indices scope = .ok p) :
    ∃ f, families.find? name = some f ∧ (p ∈ f.members.values ∨
      ∃ ps, (∀ q ∈ ps, q ∈ f.members.values) ∧ p = sum ps) := by
  obtain ⟨f, found, resolved⟩ := Build.bind_eq_ok_iff.mp resolved
  obtain ⟨pattern, -, resolved⟩ := Build.bind_eq_ok_iff.mp resolved
  refine ⟨f, Families.find?_of_lookup found, ?_⟩
  split at resolved
  next =>
    cases resolved
    exact .inr ⟨_, fun q => Family.mem_values_of_fitting, rfl⟩
  next =>
    split at resolved
    next => exact .inl (Family.mem_values_of_lookup resolved)
    next => cases resolved

/-- What holds of the members of all families and passes to sums holds of all that references stand
for. -/
theorem supplies_of_members {P : Polynomial α → Prop}
    (members : ∀ f ∈ families.values, ∀ p ∈ f.members.values, P p)
    (sums : ∀ ps, (∀ p ∈ ps, P p) → P (sum ps)) : families.Supplies P := by
  intro name indices scope
  constructor
  · intro p resolved
    obtain ⟨f, found, member | ⟨ps, inside, rfl⟩⟩ := Families.exists_of_resolve resolved
    · exact members f (SortedTable.mem_values_of_find? found) p member
    · exact sums ps fun q chosen =>
        members f (SortedTable.mem_values_of_find? found) q (inside q chosen)
  · intro ps resolved
    obtain ⟨f, found, resolved⟩ := Build.bind_eq_ok_iff.mp resolved
    obtain ⟨pattern, -, resolved⟩ := Build.bind_eq_ok_iff.mp resolved
    cases resolved
    exact fun p chosen => members f (Families.mem_values_of_lookup found) p
      (Family.mem_values_of_fitting chosen)

/-- References to families of registered variables stand for polynomials over these. -/
theorem supplies_over (registered : ∀ f ∈ families.values, f.Registered vars) :
    families.Supplies fun p => p.Ordered ∧ p.Over fun x => vars.contains x = true := by
  apply supplies_of_members
  · intro f member p hp
    have isVariable := registered f member p hp
    exact ⟨isVariable.ordered, isVariable.over⟩
  · intro ps all
    exact ⟨ordered_sum ps, over_sum fun p hp => (all p hp).2⟩

/-- References to families of registered variables have values. -/
theorem supplies_hasValue {families : Families Rat} {vars : Registry (Variable Rat)}
    (registered : ∀ f ∈ families.values, f.Registered vars) {v : Assignment Rat}
    (assigned : ∀ x, vars.contains x = true → v.Assigns x) : families.Supplies (HasValue v) :=
  (supplies_over registered).imp fun _ h => ⟨h.1, h.2.mono assigned⟩

end Supply

end MipModel
