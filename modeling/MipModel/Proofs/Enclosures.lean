import MipModel.Proofs.Feasibility

/-!
# Soundness of enclosures

Interval arithmetic encloses: when the values of variables lie between their bounds, as they do on a
feasible assignment, a polynomial takes a value between the ends of its enclosure. A product is
linear in each factor, so its extremes are at ends of the ranges (`le_mul_of_ends`,
`mul_le_of_ends`).

An enclosure depends on the variables that occur in the polynomial only, so it does not change when
further variables are registered.
-/

namespace MipModel

namespace Rational

theorem least_le (a b : Rat) : least a b ≤ a ∧ least a b ≤ b := by
  unfold least
  split <;> constructor <;> linarith

theorem le_greatest (a b : Rat) : a ≤ greatest a b ∧ b ≤ greatest a b := by
  unfold greatest
  split <;> constructor <;> linarith

/-- The least member of a list is below all members. -/
theorem leastOf_le {xs : List Rat} {x : Rat} (member : x ∈ xs) : Scalar.leastOf xs ≤ x := by
  have fold : ∀ (rest : List Rat) (y : Rat), ∀ x ∈ y :: rest, rest.foldl least y ≤ x := by
    intro rest
    induction rest with
    | nil => simp
    | cons z rest ih =>
        intro y x member
        obtain ⟨left, right⟩ := least_le y z
        have start := ih (least y z) (least y z) List.mem_cons_self
        obtain rfl | member := List.mem_cons.mp member
        · exact start.trans left
        · obtain rfl | later := List.mem_cons.mp member
          · exact start.trans right
          · exact ih (least y z) x (List.mem_cons_of_mem _ later)
  cases xs with
  | nil => cases member
  | cons y rest => exact fold rest y x member

/-- The greatest member of a list is above all members. -/
theorem le_greatestOf {xs : List Rat} {x : Rat} (member : x ∈ xs) : x ≤ Scalar.greatestOf xs := by
  have fold : ∀ (rest : List Rat) (y : Rat), ∀ x ∈ y :: rest, x ≤ rest.foldl greatest y := by
    intro rest
    induction rest with
    | nil => simp
    | cons z rest ih =>
        intro y x member
        obtain ⟨left, right⟩ := le_greatest y z
        have start := ih (greatest y z) (greatest y z) List.mem_cons_self
        obtain rfl | member := List.mem_cons.mp member
        · exact left.trans start
        · obtain rfl | later := List.mem_cons.mp member
          · exact right.trans start
          · exact ih (greatest y z) x (List.mem_cons_of_mem _ later)
  cases xs with
  | nil => cases member
  | cons y rest => exact fold rest y x member

@[simp] theorem scalarAbs_eq (x : Rat) : Scalar.abs x = |x| := by
  show (if x < 0 then -x else x) = |x|
  split
  next negative => exact (abs_of_neg negative).symm
  next nonneg => exact (abs_of_nonneg (not_lt.mp nonneg)).symm

end Rational

section Ends

variable {a b x y z : Rat}

/-- A multiple of a number from a range is above what the multiples of the ends are above. -/
theorem le_mul_of_ends (lower : a ≤ x) (upper : x ≤ b) (ha : z ≤ a * y) (hb : z ≤ b * y) :
    z ≤ x * y := by
  obtain nonneg | nonpos := le_total 0 y
  · exact ha.trans (mul_le_mul_of_nonneg_right lower nonneg)
  · exact hb.trans (mul_le_mul_of_nonpos_right upper nonpos)

theorem mul_le_of_ends (lower : a ≤ x) (upper : x ≤ b) (ha : a * y ≤ z) (hb : b * y ≤ z) :
    x * y ≤ z := by
  obtain nonneg | nonpos := le_total 0 y
  · exact (mul_le_mul_of_nonneg_right upper nonneg).trans hb
  · exact (mul_le_mul_of_nonpos_right lower nonpos).trans ha

end Ends

namespace Enclosure

def Contains (range : Enclosure Rat) (x : Rat) : Prop := range.lower ≤ x ∧ x ≤ range.upper

variable {range other : Enclosure Rat} {x y : Rat}

@[simp] theorem contains_point (x : Rat) : (point x).Contains x := ⟨le_rfl, le_rfl⟩

theorem Contains.add (hx : range.Contains x) (hy : other.Contains y) :
    (range.add other).Contains (x + y) :=
  ⟨add_le_add hx.1 hy.1, add_le_add hx.2 hy.2⟩

theorem Contains.mul (hx : range.Contains x) (hy : other.Contains y) :
    (range.mul other).Contains (x * y) := by
  obtain ⟨a, b⟩ := range
  obtain ⟨c, d⟩ := other
  obtain ⟨lowerX, upperX⟩ := hx
  obtain ⟨lowerY, upperY⟩ := hy
  have below {p : Rat} (member : p ∈ [a * c, a * d, b * c, b * d]) :=
    Rational.leastOf_le member
  have above {p : Rat} (member : p ∈ [a * c, a * d, b * c, b * d]) :=
    Rational.le_greatestOf member
  constructor
  · apply le_mul_of_ends lowerX upperX
    · rw [mul_comm]
      exact le_mul_of_ends lowerY upperY (mul_comm a c ▸ below (by simp))
        (mul_comm a d ▸ below (by simp))
    · rw [mul_comm]
      exact le_mul_of_ends lowerY upperY (mul_comm b c ▸ below (by simp))
        (mul_comm b d ▸ below (by simp))
  · apply mul_le_of_ends lowerX upperX
    · rw [mul_comm]
      exact mul_le_of_ends lowerY upperY (mul_comm a c ▸ above (by simp))
        (mul_comm a d ▸ above (by simp))
    · rw [mul_comm]
      exact mul_le_of_ends lowerY upperY (mul_comm b c ▸ above (by simp))
        (mul_comm b d ▸ above (by simp))

section Polynomials

variable {vars : Registry (Variable Rat)} {v : Assignment Rat} {w : String → Rat}

/-- The value of a variable lies in its enclosure, if it has one. -/
def Confines (vars : Registry (Variable Rat)) (w : String → Rat) (x : String) : Prop :=
  ∀ range, ofVariable? vars x = some range → range.Contains (w x)

/-- A loop over enclosures contains what the same loop makes of members. -/
theorem contains_foldlM {γ : Type} {f : γ → Option (Enclosure Rat)} {g : γ → Rat}
    {op : Enclosure Rat → Enclosure Rat → Enclosure Rat} {op' : Rat → Rat → Rat}
    (preserves : ∀ {a b : Enclosure Rat} {x y : Rat}, a.Contains x → b.Contains y →
      (op a b).Contains (op' x y)) {ts : List γ} (each : ∀ t ∈ ts, ∀ range, f t = some range →
      range.Contains (g t)) {start : Enclosure Rat} {x : Rat} (contained : start.Contains x)
    (h : ts.foldlM (fun range t => return op range (← f t)) start = some range) :
    range.Contains ((ts.map g).foldl op' x) := by
  induction ts generalizing start x with
  | nil =>
      obtain rfl := Option.some.inj h
      exact contained
  | cons t ts ih =>
      obtain ⟨here, later⟩ := List.forall_mem_cons.mp each
      rw [List.foldlM_cons] at h
      cases known : f t with
      | none =>
          rw [known] at h
          cases h
      | some member =>
          rw [known] at h
          exact ih later (preserves contained (here member known)) h

theorem contains_ofTerm? {m : Monomial} {c : Rat} (confined : ∀ x ∈ m.names, Confines vars w x)
    (h : ofTerm? vars m c = some range) : range.Contains (c * m.value w) := by
  unfold ofTerm? at h
  obtain ⟨product, factors, result⟩ := Option.bind_eq_some_iff.mp h
  obtain rfl := Option.some.inj result
  have := contains_foldlM Contains.mul confined (contains_point 1) factors
  rw [← List.prod_eq_foldl] at this
  rw [mul_comm]
  exact this.mul (contains_point c)

/-- The value of a polynomial lies in its enclosure if the values of its variables do. -/
theorem contains_value {p : Polynomial Rat} (confined : p.Over (Confines vars w))
    (h : ofPolynomial? vars p = some range) : range.Contains (p.value w) := by
  have := contains_foldlM Contains.add (fun t member range known =>
    contains_ofTerm? (confined.names_of_mem member) known) (contains_point 0) h
  rwa [← List.sum_eq_foldl] at this

end Polynomials
end Enclosure

section Bounds

variable {vars : Registry (Variable Rat)} {v : Assignment Rat}

/-- Values of registered variables lie within their bounds. Not every variable needs a value. -/
def Assignment.Within (v : Assignment Rat) (vars : Registry (Variable Rat)) : Prop :=
  ∀ x u a, vars.find? x = some u → v x = some a →
    (∀ lo ∈ u.lower, lo ≤ a) ∧ ∀ hi ∈ u.upper, a ≤ hi

/-- A variable with a value within its bounds has it in its enclosure. -/
theorem Assignment.Within.confines (h : v.Within vars) {x : String} (assigned : v.Assigns x) :
    Enclosure.Confines vars v.total x := by
  intro range enclosed
  obtain ⟨u, found, enclosed⟩ := Option.bind_eq_some_iff.mp enclosed
  obtain ⟨bounds, finite, enclosed⟩ := Option.bind_eq_some_iff.mp enclosed
  obtain rfl := Option.some.inj enclosed
  obtain ⟨a, value⟩ := Option.isSome_iff_exists.mp assigned
  obtain ⟨lower, upper⟩ := h x u a found value
  unfold Variable.finiteBounds? at finite
  split at finite
  next lo hi hasLower hasUpper =>
    split at finite
    next =>
      obtain rfl := Option.some.inj finite
      simpa [Enclosure.Contains, Assignment.total, value] using
        ⟨lower lo hasLower, upper hi hasUpper⟩
    next => cases finite
  next => cases finite

/-- A feasible assignment keeps to the bounds of variables. -/
theorem Model.Feasible.within {m : Model Rat} (feasible : m.Feasible v)
    (named : ∀ entry ∈ m.vars.entries, entry.2.name = entry.1) : v.Within m.vars := by
  intro x u a found value
  have member := Registry.mem_of_find? found
  obtain ⟨b, assigned, admitted⟩ := feasible.domains u (List.mem_map_of_mem member)
  rw [named _ member] at assigned
  obtain rfl := Option.some.inj (value.symm.trans assigned)
  simp only [Variable.admits, Bool.and_eq_true, Bool.not_eq_true', sub_zero, add_zero,
    Option.any_eq_false, decide_eq_false_iff_not, not_lt, gt_iff_lt] at admitted
  exact admitted.1

end Bounds

namespace Enclosure

section Feasible

variable {vars : Registry (Variable Rat)} {v : Assignment Rat} {range : Enclosure Rat} {y : Rat}

def Respects (v : Assignment Rat) (vars : Registry (Variable Rat)) : Prop :=
  ∀ name range, ofVariable? vars name = some range → range.Contains (v.total name)

/-- What a polynomial means lies in its enclosure. -/
theorem contains_ofPolynomial? (respects : Respects v vars) {p : Polynomial Rat}
    (h : ofPolynomial? vars p = some range) (means : p.Means v y) : range.Contains y := by
  obtain ⟨-, -, rfl⟩ := Polynomial.means_iff.mp means
  exact contains_value (fun _ _ x _ => respects x) h

/-- A feasible assignment respects the bounds of variables. -/
theorem respects_of_feasible {m : Model Rat} (feasible : m.Feasible v)
    (named : ∀ entry ∈ m.vars.entries, entry.2.name = entry.1) : Respects v m.vars := by
  intro name range h
  obtain ⟨u, found, -⟩ := Option.bind_eq_some_iff.mp h
  have member := Registry.mem_of_find? found
  obtain ⟨a, assigned, -⟩ := feasible.domains u (List.mem_map_of_mem member)
  rw [named _ member] at assigned
  exact (feasible.within named).confines (Option.isSome_iff_exists.mpr ⟨a, assigned⟩) range h

end Feasible

section Lookups

variable {α : Type} [Scalar α] {vars vars' : Registry (Variable α)} {p : Polynomial α}

/-- A loop depends on what its body does with the members of the list only. -/
theorem foldlM_congr {β γ : Type} {f g : β → γ → Option β} {xs : List γ}
    (h : ∀ x ∈ xs, ∀ b, f b x = g b x) (init : β) : xs.foldlM f init = xs.foldlM g init := by
  induction xs generalizing init with
  | nil => rfl
  | cons x xs ih =>
      obtain ⟨head, rest⟩ := List.forall_mem_cons.mp h
      rw [List.foldlM_cons, List.foldlM_cons, head]
      exact congrArg _ (funext fun b => ih rest b)

/-- An enclosure depends on the variables that occur in the polynomial only. -/
theorem ofPolynomial?_congr {S : String → Prop} (same : ∀ x, S x → vars'.find? x = vars.find? x)
    (among : p.Over S) : ofPolynomial? vars' p = ofPolynomial? vars p := by
  have bounds (x : String) (h : S x) : ofVariable? vars' x = ofVariable? vars x := by
    rw [ofVariable?, ofVariable?, same x h]
  have term (t : Monomial × α) (h : ∀ x ∈ t.1.names, S x) :
      ofTerm? vars' t.1 t.2 = ofTerm? vars t.1 t.2 := by
    rw [ofTerm?, ofTerm?]
    refine congrArg (· >>= _) (foldlM_congr (fun x member range => ?_) _)
    rw [bounds x (h x member)]
  refine foldlM_congr (fun t member range => ?_) _
  rw [term t (among.names_of_mem member)]

/-- Enclosures do not change when further variables are registered. -/
theorem ofPolynomial?_of_prefix (later : vars.entries <+: vars'.entries)
    (registered : p.Over fun x => vars.contains x = true) :
    ofPolynomial? vars' p = ofPolynomial? vars p :=
  ofPolynomial?_congr (fun _ => Registry.find?_of_prefix later) registered

end Lookups
end Enclosure

end MipModel
