import MipModel.Proofs.ByteOrder
import MipModel.Proofs.Closure
import MipModel.Proofs.Differences
import MipModel.Proofs.NormalForms

/-!
# Canonical forms

A polynomial has one form in which it is stored: its monomials ascend, the names in each of them
ascend, names being compared byte by byte; the constant term sits under the empty monomial, and no
coefficient is zero. Polynomials are built by few operations, and whatever these are given, infinite
and undefined numbers included, their results are in this form (`canonical_of_built`).

A normal form with sorted monomials is the same thing (`canonical_iff`). That is how each operation
is treated: where its monomials come from is known, and products of sorted monomials are sorted.
-/

namespace MipModel

namespace Monomial

def Sorted (m : Monomial) : Prop := m.names.Pairwise (· ≤ ·)

theorem insertName_eq_orderedInsert (name : String) (names : List String) :
    insertName name names = names.orderedInsert (· ≤ ·) name := by
  induction names with
  | nil => rfl
  | cons first rest ih =>
      rw [insertName, List.orderedInsert, ih]
      by_cases less : first < name
      · rw [if_pos less, if_neg (not_le.mpr less)]
      · rw [if_neg less, if_pos (not_lt.mp less)]

theorem sortNames_eq_insertionSort (names : List String) :
    sortNames names = names.insertionSort (· ≤ ·) := by
  induction names with
  | nil => rfl
  | cons name rest ih =>
      show insertName name (sortNames rest) = _
      rw [insertName_eq_orderedInsert, ih, List.insertionSort_cons]

@[simp] theorem sorted_ofNames (names : List String) : (ofNames names).Sorted := by
  unfold Sorted ofNames
  rw [sortNames_eq_insertionSort]
  exact List.pairwise_insertionSort (· ≤ ·) names

@[simp] theorem sorted_product (a b : Monomial) : (a.product b).Sorted := sorted_ofNames _

@[simp] theorem sorted_one : one.Sorted := List.Pairwise.nil

@[simp] theorem sorted_var (name : String) : (var name).Sorted := List.pairwise_singleton _ _

/-- The monomials that the library makes. -/
inductive Built : Monomial → Prop where
  | one : Built one
  | var (name : String) : Built (var name)
  | ofNames (names : List String) : Built (ofNames names)
  | product {a b : Monomial} : Built a → Built b → Built (a.product b)

theorem Built.sorted {m : Monomial} (h : m.Built) : m.Sorted := by
  cases h with
  | one => exact sorted_one
  | var name => exact sorted_var name
  | ofNames names => exact sorted_ofNames names
  | product _ _ => exact sorted_product _ _

end Monomial

variable {α : Type} [Scalar α]

namespace Polynomial

/-- The one form in which a polynomial is stored. -/
structure Canonical (p : Polynomial α) : Prop where
  /-- The monomials ascend, compared as lists of names, which are compared byte by byte. -/
  ascending : (p.terms.keys.map Monomial.bytes).Pairwise (· < ·)
  /-- The names of each monomial ascend. -/
  sorted : ∀ m ∈ p.terms.keys, m.bytes.Pairwise (· ≤ ·)
  /-- A term without variables is the constant term under the empty monomial. -/
  constant_eq : ∀ t ∈ p.toList, t.1.isConstant = true → t = (Monomial.one, p.constantTerm)
  /-- No coefficient is zero. -/
  nonzero : ∀ t ∈ p.toList, (t.2 == 0) = false

variable {p q : Polynomial α}

/-- The canonical form is a normal form with sorted monomials. -/
theorem canonical_iff : p.Canonical ↔ p.Normal ∧ ∀ m ∈ p.terms.keys, m.Sorted := by
  have ascending : (p.terms.keys.map Monomial.bytes).Pairwise (· < ·) ↔ p.Ordered := by
    rw [List.pairwise_map]
    exact List.Pairwise.iff fun _ _ => Monomial.bytes_lt_iff
  have sorted (m : Monomial) : m.bytes.Pairwise (· ≤ ·) ↔ m.Sorted := by
    rw [Monomial.bytes, List.pairwise_map]
    exact List.Pairwise.iff fun _ _ => Fingerprint.textBytes_le_iff
  constructor
  · intro h
    exact ⟨⟨ascending.mp h.ascending, h.nonzero⟩, fun m hm => (sorted m).mp (h.sorted m hm)⟩
  · rintro ⟨normal, names⟩
    refine ⟨ascending.mpr normal.ordered, fun m hm => (sorted m).mpr (names m hm), ?_,
      normal.nonzero⟩
    rintro ⟨⟨names⟩, c⟩ stored empty
    obtain rfl : names = [] := List.isEmpty_iff.mp empty
    have found := normal.ordered.find?_eq_some_iff.mpr stored
    show _ = (Monomial.one, (p.terms.find? Monomial.one).getD 0)
    rw [Monomial.one, found]
    rfl

section Operations

@[simp] theorem canonical_zero : (zero : Polynomial α).Canonical :=
  canonical_iff.mpr ⟨normal_zero, fun _ none => absurd none List.not_mem_nil⟩

@[simp] theorem canonical_constant (c : α) : (constant c).Canonical :=
  canonical_iff.mpr ⟨normal_constant c, fun _ member =>
    mem_keys_constant member ▸ Monomial.sorted_one⟩

theorem IsVariable.canonical {x : String} (h : p.IsVariable x) (one : ((1 : α) == 0) = false)
    (unit : ∀ c : α, (c == 1) = true → (c == 0) = false) : p.Canonical := by
  refine canonical_iff.mpr ⟨h.normal one unit, ?_⟩
  intro m hm
  obtain rfl := List.mem_singleton.mp (h.keys ▸ hm)
  exact Monomial.sorted_var x

theorem canonical_ofTerms {terms : List (Monomial × α)} (h : ∀ t ∈ terms, t.1.Sorted) :
    (ofTerms terms).Canonical := by
  refine canonical_iff.mpr ⟨normal_ofTerms terms, fun m hm => ?_⟩
  obtain ⟨t, member, rfl⟩ := List.mem_map.mp (mem_keys_ofTerms hm)
  exact h t member

theorem Canonical.add (h : p.Canonical) (h' : q.Canonical) : (p.add q).Canonical := by
  obtain ⟨normal, sorted⟩ := canonical_iff.mp h
  obtain ⟨-, sorted'⟩ := canonical_iff.mp h'
  exact canonical_iff.mpr
    ⟨normal.add q, fun m hm => (mem_keys_add hm).elim (sorted m) (sorted' m)⟩

theorem Canonical.scale (h : p.Canonical) (k : α) : (p.scale k).Canonical := by
  obtain ⟨normal, sorted⟩ := canonical_iff.mp h
  exact canonical_iff.mpr ⟨normal.scale k, fun m hm => sorted m (mem_keys_scale hm)⟩

theorem Canonical.negate (h : p.Canonical) : p.negate.Canonical := h.scale (-1)

theorem Canonical.subtract (h : p.Canonical) (h' : q.Canonical) : (p.subtract q).Canonical :=
  h.add h'.negate

/-- Products are canonical whatever the factors are. -/
@[simp] theorem canonical_multiply (p q : Polynomial α) : (p.multiply q).Canonical := by
  refine canonical_iff.mpr ⟨normal_multiply p q, fun m hm => ?_⟩
  obtain ⟨a, -, b, -, rfl⟩ := mem_keys_multiply hm
  exact Monomial.sorted_product a b

theorem canonical_sum {ps : List (Polynomial α)} (h : ∀ p ∈ ps, p.Canonical) :
    (sum ps).Canonical := by
  refine canonical_iff.mpr ⟨normal_sum ps, fun m hm => ?_⟩
  obtain ⟨p, member, here⟩ := mem_keys_sum hm
  exact (canonical_iff.mp (h p member)).2 m here

theorem Canonical.divide (h : p.Canonical) {r : Polynomial α} (quotient : p.divide q = .ok r) :
    r.Canonical := by
  obtain ⟨k, -, -, rfl⟩ := divide_eq_ok_iff.mp quotient
  exact h.scale (1 / k)

theorem Canonical.withoutConstant (h : p.Canonical) : p.withoutConstant.Canonical := by
  obtain ⟨normal, sorted⟩ := canonical_iff.mp h
  exact canonical_iff.mpr
    ⟨normal.withoutConstant, fun m hm => sorted m (mem_keys_withoutConstant hm)⟩

/-- The terms after a substitution are products, so their sum is canonical. -/
@[simp] theorem canonical_substitute (p : Polynomial α) (name : String)
    (replacement : Polynomial α) :
    (p.substitute name replacement).Canonical := by
  apply canonical_sum
  rintro _ member
  obtain ⟨t, -, rfl⟩ := List.mem_map.mp member
  exact canonical_multiply _ _

end Operations

/-- Direct evaluation makes canonical polynomials of canonical ones. -/
theorem simulates_canonical :
    Simulates (fun (p : Polynomial α) _ => p.Canonical) Canonical (fun _ => True)
      (polynomials fun _ _ => False) anything where
  constant c := canonical_constant c
  polynomial := by
    rintro p _ canonical rfl
    exact ⟨(), trivial, canonical⟩
  zero := canonical_zero
  add h h' := h.add h'
  sub h h' := h.subtract h'
  mul _ _ := canonical_multiply _ _
  neg h := h.negate
  div h _ quotient := ⟨(), trivial, h.divide quotient⟩
  construct _ _ none := none.elim

theorem canonical_evaluate {families : Families α} (supplies : families.Supplies Canonical)
    {e : Expr α} (embeds : e.Every (Expr.Embeds Canonical)) {scope : Scope α}
    (evaluated : e.evaluate families scope = .ok p) : p.Canonical := by
  have uses : e.Every (Expr.Uses fun _ => True) := Expr.every_of_forall (fun _ _ _ => trivial) e
  obtain ⟨_, -, canonical⟩ := simulates_canonical.denotes supplies embeds uses
    (Expr.evaluate_eq_ok_iff.mp evaluated)
  exact canonical

/-- Families of registered variables supply canonical polynomials. -/
theorem supplies_canonical (one : ((1 : α) == 0) = false)
    (unit : ∀ c : α, (c == 1) = true → (c == 0) = false) {families : Families α}
    {vars : Registry (Variable α)} (registered : ∀ f ∈ families.values, f.Registered vars) :
    families.Supplies Canonical := by
  refine supplies_of_members (fun f member p stored => ?_) fun _ => canonical_sum
  obtain ⟨x, isVariable, -⟩ := registered f member p stored
  exact isVariable.canonical one unit

variable [Naming α]

/-- The polynomials that the library builds. -/
inductive Built : Polynomial α → Prop where
  | constant (c : α) : Built (constant c)
  | var (name : String) : Built (var name)
  | ofTerms {terms : List (Monomial × α)} : (∀ t ∈ terms, t.1.Built) → Built (ofTerms terms)
  | add {p q : Polynomial α} : Built p → Built q → Built (p.add q)
  | subtract {p q : Polynomial α} : Built p → Built q → Built (p.subtract q)
  | scale {p : Polynomial α} (k : α) : Built p → Built (p.scale k)
  | negate {p : Polynomial α} : Built p → Built p.negate
  | multiply {p q : Polynomial α} : Built p → Built q → Built (p.multiply q)
  | divide {p q r : Polynomial α} : Built p → Built q → p.divide q = .ok r → Built r
  | substitute {p q : Polynomial α} (name : String) :
      Built p → Built q → Built (p.substitute name q)
  | withoutConstant {p : Polynomial α} : Built p → Built p.withoutConstant
  | sumFitting (f : Family α) (pattern : Pattern) :
      (∀ p ∈ f.members.values, Built p) → Built (f.sumFitting pattern)
  /-- The value of an expression with built polynomials in it. -/
  | evaluate {m : Model α} {e : Expr α} {scope : Scope α} {embedded : List (Polynomial α)}
      {p : Polynomial α} : m.Reachable → e.Every (Expr.Embeds (· ∈ embedded)) →
      (∀ q ∈ embedded, Built q) → e.evaluate m.families scope = .ok p → Built p

/-- What is built is canonical, provided that nothing equal to one is equal to zero. -/
theorem Built.canonical (one : ((1 : α) == 0) = false)
    (unit : ∀ c : α, (c == 1) = true → (c == 0) = false) (h : p.Built) : p.Canonical := by
  induction h with
  | constant c => exact canonical_constant c
  | var name => exact (isVariable_var name).canonical one unit
  | ofTerms built => exact canonical_ofTerms fun t member => (built t member).sorted
  | add _ _ ihp ihq => exact ihp.add ihq
  | subtract _ _ ihp ihq => exact ihp.subtract ihq
  | scale k _ ih => exact ih.scale k
  | negate _ ih => exact ih.negate
  | multiply _ _ _ _ => exact canonical_multiply _ _
  | divide _ _ quotient ihp _ => exact ihp.divide quotient
  | substitute name _ _ _ _ => exact canonical_substitute _ name _
  | withoutConstant _ ih => exact ih.withoutConstant
  | sumFitting f pattern _ ih =>
      exact canonical_sum fun p member => ih p (Family.mem_values_of_fitting member)
  | evaluate reachable embeds _ evaluated ih =>
      exact canonical_evaluate (supplies_canonical one unit reachable.consistent.members)
        (embeds.imp fun e embedded => embedded.imp ih) evaluated

end Polynomial

/-- Every binary64 polynomial that the library builds is in canonical form. -/
theorem canonical_of_built [Naming Float] {p : Polynomial Float} (built : p.Built) :
    p.Canonical :=
  built.canonical (by decide +kernel) fun _ => Binary64.beq_zero_of_beq_one

/-- An undefined and an infinite coefficient, a zero with a sign and two terms that cancel, times
the sum of a family. -/
theorem undefined_product_canonical :
    let i : Generator Float := .of "i" (.values [10, 9])
    let m : Model Float := .build .minimize .standard [.createFamily "x" [i] .binary .empty]
    let q : Polynomial Float := .ofTerms [(.ofNames ["y", "b"], 0 / 0), (.one, -0),
      (.var "b", Binary64.infinity), (.var "y", 2), (.var "y", -2)]
    let e : Expr Float := .mul (.poly q) (.var "x" [.wildcard])
    ∃ p, e.evaluate m.families .empty = .ok p ∧ p.toList.length = 4 ∧ p.Canonical := by
  intro i m q e
  have reachable : m.Reachable := Model.reachable_build _ _ _
  have embeds : e.Every (Expr.Embeds (· ∈ [q])) := ⟨trivial, List.mem_singleton_self q, trivial⟩
  have built : q.Built := by
    refine .ofTerms ?_
    simp only [List.forall_mem_cons]
    exact ⟨.ofNames _, .one, .var _, .var _, .var _, fun _ none => absurd none List.not_mem_nil⟩
  have length : (e.evaluate m.families .empty).toOption.map (·.toList.length) = some 4 := by
    decide +kernel
  rcases evaluated : e.evaluate m.families .empty with err | p
  · rw [evaluated] at length
    cases length
  · rw [evaluated] at length
    exact ⟨p, rfl, Option.some.inj length,
      canonical_of_built (.evaluate reachable embeds (by simpa using built) evaluated)⟩

end MipModel
