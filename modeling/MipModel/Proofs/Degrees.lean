import MipModel.Proofs.Valuation

/-!
# Degrees of polynomials

Bounds on the degree pass through the operations on polynomials: sums keep a common bound, products
add their bounds up. A polynomial is constant when its degree is at most zero.

A polynomial of degree at most two is its constant term, its linear terms and its quadratic terms,
and nothing else (`value_of_degree_le_two`). This is the form in which solvers take it.
-/

namespace MipModel

namespace Monomial

@[simp] theorem degree_product (a b : Monomial) : (a.product b).degree = a.degree + b.degree := by
  have same := (names_product_perm a b).length_eq
  rwa [List.length_append] at same

theorem isConstant_iff {m : Monomial} : m.isConstant = true ↔ m.degree ≤ 0 := by
  simp [isConstant, degree]

end Monomial

namespace Polynomial

section Bounds

variable {α : Type} {p q r : Polynomial α} {n : Nat}

/-- The degree is the largest degree of a monomial. -/
theorem degree_le_iff : p.degree ≤ n ↔ ∀ m ∈ p.terms.keys, m.degree ≤ n := by
  have fold : ∀ (degrees : List Nat) (init : Nat),
      degrees.foldl max init ≤ n ↔ init ≤ n ∧ ∀ d ∈ degrees, d ≤ n := by
    intro degrees
    induction degrees with
    | nil => simp
    | cons d degrees ih =>
        intro init
        rw [List.foldl_cons, ih, List.forall_mem_cons, max_le_iff, and_assoc]
  simp [degree, fold]

theorem isConstant_iff : p.isConstant = true ↔ p.degree ≤ 0 := by
  rw [isConstant, List.all_eq_true, degree_le_iff]
  exact forall₂_congr fun m _ => Monomial.isConstant_iff

@[simp] theorem one_notMem_withoutConstant (p : Polynomial α) :
    Monomial.one ∉ p.withoutConstant.terms.keys := by
  intro member
  obtain ⟨t, kept, one⟩ := List.mem_map.mp member
  simpa [one] using (List.mem_filter.mp kept).2

theorem degree_withoutConstant_le (h : p.degree ≤ n) : p.withoutConstant.degree ≤ n := by
  rw [degree_le_iff] at h ⊢
  exact fun m hm => h m ((List.filter_sublist.map Prod.fst).subset hm)

/-- The terms of a polynomial have at most its degree. -/
theorem degree_of_mem (h : p.degree ≤ n) {t : Monomial × α} (member : t ∈ p.toList) :
    t.1.degree ≤ n :=
  degree_le_iff.mp h t.1 (List.mem_map_of_mem member)

variable [Scalar α]

@[simp] theorem degree_constant (c : α) : (constant c).degree = 0 := by
  obtain ⟨-, empty⟩ | ⟨-, single⟩ := constant_cases c
  · exact empty ▸ rfl
  · exact single ▸ rfl

theorem degree_add_le (hp : p.degree ≤ n) (hq : q.degree ≤ n) : (p.add q).degree ≤ n := by
  rw [degree_le_iff] at hp hq ⊢
  exact fun m hm => (mem_keys_add hm).elim (hp m) (hq m)

theorem degree_sum_le {ps : List (Polynomial α)} (h : ∀ p ∈ ps, p.degree ≤ n) :
    (sum ps).degree ≤ n := by
  rw [degree_le_iff]
  intro m hm
  obtain ⟨p, member, here⟩ := mem_keys_sum hm
  exact degree_le_iff.mp (h p member) m here

theorem degree_scale_le (h : p.degree ≤ n) (k : α) : (p.scale k).degree ≤ n := by
  rw [degree_le_iff] at h ⊢
  exact fun m hm => h m (mem_keys_scale hm)

theorem degree_negate_le (h : p.degree ≤ n) : p.negate.degree ≤ n := degree_scale_le h (-1)

theorem degree_subtract_le (hp : p.degree ≤ n) (hq : q.degree ≤ n) :
    (p.subtract q).degree ≤ n :=
  degree_add_le hp (degree_negate_le hq)

theorem degree_multiply_le {k l : Nat} (hp : p.degree ≤ k) (hq : q.degree ≤ l) :
    (p.multiply q).degree ≤ k + l := by
  rw [degree_le_iff] at hp hq ⊢
  intro m hm
  obtain ⟨a, ha, b, hb, rfl⟩ := mem_keys_multiply hm
  simpa using Nat.add_le_add (hp a ha) (hq b hb)

theorem degree_divide_le (h : p.degree ≤ n) (quotient : p.divide q = .ok r) : r.degree ≤ n := by
  obtain ⟨k, -, -, rfl⟩ := divide_eq_ok_iff.mp quotient
  exact degree_scale_le h (1 / k)

end Bounds

section LowDegree

@[simp] theorem mem_linearTerms_iff {α : Type} {p : Polynomial α} {a : String} {c : α} :
    (a, c) ∈ p.linearTerms ↔ (⟨[a]⟩, c) ∈ p.toList := by
  refine ⟨fun member => ?_, fun stored => List.mem_filterMap.mpr ⟨_, stored, rfl⟩⟩
  obtain ⟨⟨⟨names⟩, c'⟩, stored, same⟩ := List.mem_filterMap.mp member
  match names with
  | [] | _ :: _ :: _ => cases same
  | [_] =>
      cases same
      exact stored

@[simp] theorem mem_quadraticTerms_iff {α : Type} {p : Polynomial α} {a b : String} {c : α} :
    (a, b, c) ∈ p.quadraticTerms ↔ (⟨[a, b]⟩, c) ∈ p.toList := by
  refine ⟨fun member => ?_, fun stored => List.mem_filterMap.mpr ⟨_, stored, rfl⟩⟩
  obtain ⟨⟨⟨names⟩, c'⟩, stored, same⟩ := List.mem_filterMap.mp member
  match names with
  | [] | [_] | _ :: _ :: _ :: _ => cases same
  | [_, _] =>
      cases same
      exact stored

/-- A polynomial of degree at most one has no quadratic terms. -/
theorem quadraticTerms_eq_nil {α : Type} {p : Polynomial α} (low : p.degree ≤ 1) :
    p.quadraticTerms = [] := by
  refine List.filterMap_eq_nil_iff.mpr fun t member => ?_
  have small := degree_of_mem low member
  obtain ⟨⟨names⟩, c⟩ := t
  match names with
  | [] | [_] | _ :: _ :: _ :: _ => rfl
  | [_, _] => simp [Monomial.degree] at small

/-- The variables of a polynomial of degree at most two are those of its linear and its quadratic
terms. -/
theorem over_of_degree_le_two {α : Type} {p : Polynomial α} {S : String → Prop}
    (low : p.degree ≤ 2) (linear : ∀ t ∈ p.linearTerms, S t.1)
    (quadratic : ∀ t ∈ p.quadraticTerms, S t.1 ∧ S t.2.1) : p.Over S := by
  intro m member
  obtain ⟨⟨⟨names⟩, c⟩, stored, rfl⟩ := List.mem_map.mp member
  have small := degree_of_mem low stored
  match names with
  | [] => exact fun x none => absurd none List.not_mem_nil
  | [a] =>
      have here := linear (a, c) (mem_linearTerms_iff.mpr stored)
      simpa using here
  | [a, b] =>
      have here := quadratic (a, b, c) (mem_quadraticTerms_iff.mpr stored)
      simpa using here
  | _ :: _ :: _ :: _ => simp [Monomial.degree] at small

/-- A polynomial of degree at most two without constant term is empty when it has neither linear nor
quadratic terms. -/
theorem isZero_iff_of_degree_le_two {α : Type} {p : Polynomial α} (low : p.degree ≤ 2)
    (noConstant : Monomial.one ∉ p.terms.keys) :
    p.isZero = true ↔ p.linearTerms = [] ∧ p.quadraticTerms = [] := by
  have empty : p.isZero = true ↔ p.toList = [] := List.isEmpty_iff
  rw [empty]
  constructor
  · intro none
    exact ⟨by rw [linearTerms, none, List.filterMap_nil],
      by rw [quadraticTerms, none, List.filterMap_nil]⟩
  · rintro ⟨linear, quadratic⟩
    have closed : p.Over fun _ => False := over_of_degree_le_two low (by simp [linear])
      (by simp [quadratic])
    refine List.eq_nil_iff_forall_not_mem.mpr fun t stored => noConstant ?_
    have one : t.1 = Monomial.one :=
      congrArg Monomial.mk (List.eq_nil_iff_forall_not_mem.mpr (closed.names_of_mem stored))
    exact one ▸ List.mem_map_of_mem stored

/-- A polynomial of degree at most two is told by its constant term, its linear terms and its
quadratic terms. -/
theorem eq_of_terms {α : Type} {p q : Polynomial α} (hp : p.Ordered) (hq : q.Ordered)
    (low : p.degree ≤ 2) (low' : q.degree ≤ 2)
    (constant : ∀ c, (Monomial.one, c) ∈ p.toList ↔ (Monomial.one, c) ∈ q.toList)
    (linear : p.linearTerms = q.linearTerms) (quadratic : p.quadraticTerms = q.quadraticTerms) :
    p = q := by
  have tables : p.terms = q.terms := by
    refine SortedTable.Ordered.ext hp hq fun ⟨⟨names⟩, c⟩ => ?_
    match names with
    | [] => exact constant c
    | [a] => exact mem_linearTerms_iff.symm.trans (linear ▸ mem_linearTerms_iff)
    | [a, b] => exact mem_quadraticTerms_iff.symm.trans (quadratic ▸ mem_quadraticTerms_iff)
    | _ :: _ :: _ :: _ =>
        refine iff_of_false (fun stored => ?_) fun stored => ?_
        · simpa [Monomial.degree] using degree_of_mem low stored
        · simpa [Monomial.degree] using degree_of_mem low' stored
  cases p
  cases q
  exact congrArg Polynomial.mk tables

variable {p : Polynomial Rat} {w : String → Rat}

/-- Without a constant term, a polynomial of degree at most two is the sum of its linear and its
quadratic terms. -/
theorem value_of_linear_and_quadratic (noConstant : Monomial.one ∉ p.terms.keys)
    (low : p.degree ≤ 2) :
    p.value w = (p.linearTerms.map fun t => t.2 * w t.1).sum +
      (p.quadraticTerms.map fun t => t.2.2 * (w t.1 * w t.2.1)).sum := by
  obtain ⟨⟨terms⟩⟩ := p
  rw [degree_le_iff] at low
  simp only [value, SortedTable.total, linearTerms, quadraticTerms, toList]
  induction terms with
  | nil => simp
  | cons t terms ih =>
      obtain ⟨other, noConstant⟩ := not_or.mp (fun h => noConstant (List.mem_cons.mpr h))
      obtain ⟨small, low⟩ := List.forall_mem_cons.mp low
      have rest := ih noConstant low
      obtain ⟨⟨names⟩, c⟩ := t
      rcases names with _ | ⟨a, _ | ⟨b, _ | ⟨_, _⟩⟩⟩
      · exact absurd rfl other
      · have factor : Monomial.value w ⟨[a]⟩ = w a := Monomial.value_var w a
        simp only [List.map_cons, List.sum_cons, List.filterMap_cons, factor, rest]
        ring
      · have factors : Monomial.value w ⟨[a, b]⟩ = w a * w b := by simp [Monomial.value]
        simp only [List.map_cons, List.sum_cons, List.filterMap_cons, factors, rest]
        ring
      · simp [Monomial.degree] at small

@[simp] theorem linearTerms_withoutConstant {α : Type} {p : Polynomial α} :
    p.withoutConstant.linearTerms = p.linearTerms := by
  obtain ⟨⟨terms⟩⟩ := p
  simp only [withoutConstant, SortedTable.erase, linearTerms, toList, List.filterMap_filter]
  refine List.filterMap_congr fun t _ => ?_
  obtain ⟨⟨_ | ⟨a, _ | _⟩⟩, c⟩ := t <;> simp [Monomial.one]

@[simp] theorem quadraticTerms_withoutConstant {α : Type} {p : Polynomial α} :
    p.withoutConstant.quadraticTerms = p.quadraticTerms := by
  obtain ⟨⟨terms⟩⟩ := p
  simp only [withoutConstant, SortedTable.erase, quadraticTerms, toList, List.filterMap_filter]
  refine List.filterMap_congr fun t _ => ?_
  obtain ⟨⟨_ | ⟨a, _ | ⟨b, _ | _⟩⟩⟩, c⟩ := t <;> simp [Monomial.one]

/-- The constant term is what remains where all variables are zero. -/
theorem constantTerm_eq_value (h : p.Ordered) : p.constantTerm = p.value fun _ => 0 := by
  have rest : p.withoutConstant.value (fun _ => 0) = 0 := by
    refine List.sum_eq_zero fun y hy => ?_
    obtain ⟨⟨⟨names⟩, c⟩, stored, rfl⟩ := List.mem_map.mp hy
    cases names with
    | nil => exact absurd (List.mem_map_of_mem stored) (one_notMem_withoutConstant p)
    | cons x names => simp [Monomial.value]
  rw [value_withoutConstant h] at rest
  linarith

@[simp] theorem constantTerm_negate (h : p.Ordered) : p.negate.constantTerm = -p.constantTerm := by
  simp [constantTerm_eq_value, h]

/-- A polynomial of degree at most two is the sum of its constant term, its linear terms and its
quadratic terms. -/
theorem value_of_degree_le_two (h : p.Ordered) (low : p.degree ≤ 2) :
    p.value w = p.constantTerm + (p.linearTerms.map fun t => t.2 * w t.1).sum +
      (p.quadraticTerms.map fun t => t.2.2 * (w t.1 * w t.2.1)).sum := by
  have rest := value_of_linear_and_quadratic (w := w) (one_notMem_withoutConstant p)
    (degree_withoutConstant_le low)
  rw [value_withoutConstant h, linearTerms_withoutConstant, quadraticTerms_withoutConstant] at rest
  linarith

end LowDegree

end Polynomial

end MipModel
