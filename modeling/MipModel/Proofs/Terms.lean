import MipModel.Proofs.OrderedTables
import MipModel.Polynomial.Text

/-!
# Terms of polynomials

What the operations on polynomials preserve about the term list: that every monomial has one term,
in its place (`Ordered`), and that the variables that occur are among given ones (`Over`).
-/

namespace MipModel

/-- Monomials are compared as lists of names, which are totally ordered. -/
instance Monomial.instIsStrictTotalOrder : IsStrictTotalOrder Monomial (· < ·) where
  trichotomous a b notLess notGreater := by
    have : a.names = b.names := le_antisymm (not_lt.mp notGreater) (not_lt.mp notLess)
    cases a
    cases b
    exact congrArg Monomial.mk this
  irrefl a := lt_irrefl a.names
  trans a b c first second := lt_trans (b := b.names) first second

namespace Monomial

theorem insertName_perm (name : String) (names : List String) :
    (insertName name names).Perm (name :: names) := by
  induction names with
  | nil => exact .refl _
  | cons first rest ih =>
      unfold insertName
      split
      · exact (ih.cons first).trans (.swap name first rest)
      · exact .refl _

theorem sortNames_perm (names : List String) : (sortNames names).Perm names := by
  induction names with
  | nil => exact .refl _
  | cons name rest ih => exact (insertName_perm name (sortNames rest)).trans (ih.cons name)

theorem names_product_perm (a b : Monomial) : (a.product b).names.Perm (a.names ++ b.names) :=
  sortNames_perm _

end Monomial

namespace Polynomial

variable {α : Type} [Scalar α]

section Cases

/-! What the operations come to that drop coefficients of zero, or that can fail. -/

theorem constant_cases (c : α) :
    (c == 0) = true ∧ constant c = zero ∨
      (c == 0) = false ∧ constant c = ⟨⟨[(Monomial.one, c)]⟩⟩ := by
  cases zero : c == 0 <;> simp [constant, zero]

/-- A term that is added is dropped, cancels the term of its monomial, or is put in its place. -/
theorem addTerm_cases (p : Polynomial α) (m : Monomial) (c : α) :
    (c == 0) = true ∧ p.addTerm m c = p ∨
      (p.coefficient m + c == 0) = true ∧ p.addTerm m c = ⟨p.terms.erase m⟩ ∨
      (p.coefficient m + c == 0) = false ∧
        p.addTerm m c = ⟨p.terms.insert m (p.coefficient m + c)⟩ := by
  cases zero : c == 0 <;> cases cancelled : p.coefficient m + c == 0 <;>
    simp [addTerm, zero, cancelled]

theorem scale_cases (p : Polynomial α) (k : α) :
    (k == 0) = true ∧ p.scale k = .zero ∨ (k == 0) = false ∧
      p.scale k = ⟨⟨(p.toList.map fun t => (t.1, t.2 * k)).filter fun t => !(t.2 == 0)⟩⟩ := by
  cases zero : k == 0 <;> simp [scale, zero]

theorem constantValue?_eq_some_iff {p : Polynomial α} {c : α} :
    p.constantValue? = some c ↔ p.isConstant = true ∧ p.constantTerm = c := by
  simp [constantValue?]

/-- A quotient exists when the divisor is a number other than zero. It is a multiple. -/
theorem divide_eq_ok_iff {p q r : Polynomial α} : p.divide q = .ok r ↔
    ∃ k, q.constantValue? = some k ∧ (k == 0) = false ∧ r = p.scale (1 / k) := by
  unfold divide
  cases q.constantValue? with
  | none => simp
  | some k => cases zero : k == 0 <;> simp [zero, @eq_comm _ r]

end Cases

/-- Every monomial has one term, in its place. -/
def Ordered (p : Polynomial α) : Prop := p.terms.Ordered

omit [Scalar α] in
@[simp] theorem ordered_zero : (zero : Polynomial α).Ordered := List.Pairwise.nil

@[simp] theorem ordered_constant (c : α) : (constant c).Ordered := by
  obtain ⟨-, empty⟩ | ⟨-, single⟩ := constant_cases c
  · exact empty ▸ ordered_zero
  · exact single ▸ List.pairwise_singleton _ _

@[simp] theorem ordered_var (name : String) : (var name : Polynomial α).Ordered :=
  List.pairwise_singleton _ _

theorem var_injective : Function.Injective (var : String → Polynomial α) := by
  intro x y same
  have keys := congrArg (fun p : Polynomial α => p.terms.keys) same
  simpa [var, SortedTable.keys, Monomial.var] using keys

variable {p q : Polynomial α}

theorem Ordered.addTerm (h : p.Ordered) (m : Monomial) (c : α) : (p.addTerm m c).Ordered := by
  obtain ⟨-, same⟩ | ⟨-, erased⟩ | ⟨-, inserted⟩ := p.addTerm_cases m c
  · rwa [same]
  · rw [erased]
    exact SortedTable.Ordered.erase h m
  · rw [inserted]
    exact SortedTable.Ordered.insert h m _

theorem Ordered.addTerms (h : p.Ordered) (terms : List (Monomial × α)) :
    (p.addTerms terms).Ordered := by
  induction terms generalizing p with
  | nil => exact h
  | cons t terms ih => exact ih (h.addTerm t.1 t.2)

@[simp] theorem ordered_ofTerms (terms : List (Monomial × α)) : (ofTerms terms).Ordered :=
  ordered_zero.addTerms terms

@[simp] theorem Ordered.add (h : p.Ordered) (q : Polynomial α) : (p.add q).Ordered :=
  h.addTerms q.toList

@[simp] theorem Ordered.scale (h : p.Ordered) (k : α) : (p.scale k).Ordered := by
  obtain ⟨-, empty⟩ | ⟨-, scaled⟩ := p.scale_cases k
  · exact empty ▸ ordered_zero
  · have keys : (p.toList.map fun t => (t.1, t.2 * k)).map Prod.fst = p.terms.keys := by
      simp [toList, SortedTable.keys, Function.comp_def]
    rw [scaled]
    apply List.Pairwise.sublist (List.filter_sublist.map Prod.fst)
    rw [keys]
    exact h

@[simp] theorem Ordered.negate (h : p.Ordered) : p.negate.Ordered := h.scale (-1)

@[simp] theorem Ordered.subtract (h : p.Ordered) (q : Polynomial α) : (p.subtract q).Ordered :=
  h.add q.negate

@[simp] theorem ordered_multiply (p q : Polynomial α) : (p.multiply q).Ordered := ordered_ofTerms _

@[simp] theorem ordered_sum (ps : List (Polynomial α)) : (sum ps).Ordered := by
  have fold : ∀ total : Polynomial α, total.Ordered → (ps.foldl Polynomial.add total).Ordered := by
    induction ps with
    | nil => exact fun total h => h
    | cons p ps ih => exact fun total h => ih _ (h.add p)
  exact fold zero ordered_zero

omit [Scalar α] in
@[simp] theorem Ordered.withoutConstant (h : p.Ordered) : p.withoutConstant.Ordered :=
  SortedTable.Ordered.erase h _

section Keys

/-! Where the monomials of a result come from. -/

variable {m : Monomial} {terms : List (Monomial × α)} {ps : List (Polynomial α)}

theorem mem_keys_constant {c : α} (h : m ∈ (constant c).terms.keys) : m = Monomial.one := by
  obtain ⟨-, empty⟩ | ⟨-, single⟩ := constant_cases c
  · rw [empty] at h
    exact absurd h List.not_mem_nil
  · rw [single] at h
    exact List.mem_singleton.mp h

theorem mem_keys_addTerm {m' : Monomial} {c : α} (h : m ∈ (p.addTerm m' c).terms.keys) :
    m = m' ∨ m ∈ p.terms.keys := by
  obtain ⟨-, same⟩ | ⟨-, erased⟩ | ⟨-, inserted⟩ := p.addTerm_cases m' c
  · rw [same] at h
    exact .inr h
  · rw [erased] at h
    exact .inr ((List.filter_sublist.map Prod.fst).subset h)
  · rw [inserted] at h
    exact SortedTable.mem_keys_insertEntry h

theorem mem_keys_addTerms (h : m ∈ (p.addTerms terms).terms.keys) :
    m ∈ p.terms.keys ∨ m ∈ terms.map Prod.fst := by
  induction terms generalizing p with
  | nil => exact .inl h
  | cons t terms ih =>
      rw [List.map_cons, List.mem_cons]
      obtain step | later := ih h
      · obtain rfl | earlier := mem_keys_addTerm step
        · exact .inr (.inl rfl)
        · exact .inl earlier
      · exact .inr (.inr later)

theorem mem_keys_ofTerms (h : m ∈ (ofTerms terms).terms.keys) : m ∈ terms.map Prod.fst :=
  (mem_keys_addTerms h).resolve_left List.not_mem_nil

theorem mem_keys_add (h : m ∈ (p.add q).terms.keys) : m ∈ p.terms.keys ∨ m ∈ q.terms.keys :=
  mem_keys_addTerms h

theorem mem_keys_sum (h : m ∈ (sum ps).terms.keys) : ∃ p ∈ ps, m ∈ p.terms.keys := by
  have fold : ∀ total : Polynomial α, m ∈ (ps.foldl Polynomial.add total).terms.keys →
      m ∈ total.terms.keys ∨ ∃ p ∈ ps, m ∈ p.terms.keys := by
    clear h
    induction ps with
    | nil => exact fun total h => .inl h
    | cons p ps ih =>
        intro total h
        obtain step | ⟨q, member, later⟩ := ih _ h
        · exact (mem_keys_add step).imp_right fun here => ⟨p, List.mem_cons_self, here⟩
        · exact .inr ⟨q, List.mem_cons_of_mem _ member, later⟩
  exact (fold zero h).resolve_left List.not_mem_nil

theorem mem_keys_scale {k : α} (h : m ∈ (p.scale k).terms.keys) : m ∈ p.terms.keys := by
  obtain ⟨-, empty⟩ | ⟨-, scaled⟩ := p.scale_cases k
  · rw [empty] at h
    exact absurd h List.not_mem_nil
  · rw [scaled] at h
    obtain ⟨t, member, rfl⟩ := List.mem_map.mp h
    obtain ⟨t', member', rfl⟩ := List.mem_map.mp (List.mem_filter.mp member).1
    show t'.1 ∈ p.toList.map Prod.fst
    exact List.mem_map_of_mem member'

theorem mem_keys_multiply (h : m ∈ (p.multiply q).terms.keys) :
    ∃ a ∈ p.terms.keys, ∃ b ∈ q.terms.keys, m = a.product b := by
  obtain ⟨t, member, rfl⟩ := List.mem_map.mp (mem_keys_ofTerms h)
  obtain ⟨a, ha, member⟩ := List.mem_flatMap.mp member
  obtain ⟨b, hb, rfl⟩ := List.mem_map.mp member
  exact ⟨a.1, List.mem_map_of_mem ha, b.1, List.mem_map_of_mem hb, rfl⟩

omit [Scalar α] in
theorem mem_keys_withoutConstant (h : m ∈ p.withoutConstant.terms.keys) : m ∈ p.terms.keys :=
  (List.filter_sublist.map Prod.fst).subset h

end Keys

section Over

/-- Every variable that occurs in the polynomial satisfies `S`. -/
def Over (S : String → Prop) (p : Polynomial α) : Prop :=
  ∀ m ∈ p.terms.keys, ∀ x ∈ m.names, S x

variable {S : String → Prop}

omit [Scalar α] in
theorem Over.mono {S' : String → Prop} (h : p.Over S) (weaker : ∀ x, S x → S' x) : p.Over S' :=
  fun m hm x hx => weaker x (h m hm x hx)

omit [Scalar α] in
theorem over_iff_occurrences : p.Over S ↔ ∀ x ∈ p.occurrences, S x := by
  simp only [Over, occurrences, List.mem_flatMap]
  grind

omit [Scalar α] in
/-- The list of variables names those that occur. -/
@[simp] theorem mem_vars {x : String} : x ∈ p.vars ↔ x ∈ p.occurrences := by
  simp [vars]

omit [Scalar α] in
theorem over_iff_vars : p.Over S ↔ ∀ x ∈ p.vars, S x := by
  simp only [over_iff_occurrences, mem_vars]

omit [Scalar α] in
@[simp] theorem over_zero : (zero : Polynomial α).Over S :=
  fun _ none => absurd none List.not_mem_nil

@[simp] theorem over_constant (c : α) : (constant c).Over S := by
  intro m hm x hx
  rw [mem_keys_constant hm] at hx
  exact absurd hx List.not_mem_nil

theorem over_var {name : String} (h : S name) : (var name : Polynomial α).Over S := by
  rintro m (_ | ⟨_, none⟩) x hx
  · exact List.mem_singleton.mp hx ▸ h
  · cases none

omit [Scalar α] in
theorem Over.names_of_mem (h : p.Over S) {t : Monomial × α} (member : t ∈ p.toList) :
    ∀ x ∈ t.1.names, S x :=
  h t.1 (List.mem_map_of_mem member)

theorem Over.add (h : p.Over S) (h' : q.Over S) : (p.add q).Over S :=
  fun m hm => (mem_keys_add hm).elim (h m) (h' m)

theorem Over.scale (h : p.Over S) (k : α) : (p.scale k).Over S :=
  fun m hm => h m (mem_keys_scale hm)

theorem Over.negate (h : p.Over S) : p.negate.Over S := h.scale (-1)

theorem Over.subtract (h : p.Over S) (h' : q.Over S) : (p.subtract q).Over S := h.add h'.negate

theorem Over.multiply (h : p.Over S) (h' : q.Over S) : (p.multiply q).Over S := by
  intro m hm x hx
  obtain ⟨a, ha, b, hb, rfl⟩ := mem_keys_multiply hm
  have either := (Monomial.names_product_perm a b).mem_iff.mp hx
  obtain left | right := List.mem_append.mp either
  · exact h a ha x left
  · exact h' b hb x right

theorem over_sum {ps : List (Polynomial α)} (h : ∀ p ∈ ps, p.Over S) : (sum ps).Over S := by
  intro m hm
  obtain ⟨p, member, here⟩ := mem_keys_sum hm
  exact h p member m here

theorem Over.divide (h : p.Over S) {r : Polynomial α} (quotient : p.divide q = .ok r) :
    r.Over S := by
  obtain ⟨k, -, -, rfl⟩ := divide_eq_ok_iff.mp quotient
  exact h.scale (1 / k)

omit [Scalar α] in
theorem Over.withoutConstant (h : p.Over S) : p.withoutConstant.Over S :=
  fun m hm => h m (mem_keys_withoutConstant hm)

end Over

end Polynomial

end MipModel
