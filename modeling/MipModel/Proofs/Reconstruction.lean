import MipModel.Linearization.Naming
import MipModel.Proofs.Documents
import MipModel.Proofs.Identifiers
import MipModel.Proofs.NormalForms
import MipModel.Variable.Interval

/-!
# Models from their text

A written model can be recovered from its text: direction, objective, rows, and the variables with
their kinds and intervals (`content_eq_of_write`). What the text does not tell is whether a relation
is strict, how the binary variables stand among the others, which are their bounds, and whether a
missing bound was given as an infinite one.

Names have to be identifiers and numbers have to be numbers, constraints have to be comparisons, and
no quadratic coefficient of the objective may overflow when it is doubled.
-/

namespace MipModel

namespace Identifier

theorem Plain.solid {s : String} (h : Plain s) : Solid s := by
  intro c member
  have plain := h c member
  constructor <;> rintro rfl <;> exact absurd plain (by simp)

theorem solid_of_isName {s : String} (h : isName s = true) : Solid s := (plain_of_isName h).solid

end Identifier

namespace Model

section Contents

variable {α : Type}

/-- The names of the variables of a model, those included that occur without being registered. -/
def occurringNames (m : Model α) : List String :=
  m.vars.names ++ m.objective.occurrences ++
    m.constraints.values.flatMap fun c => c.lhs.occurrences

/-- The numbers of a model: coefficients, right sides and bounds. -/
def numbers (m : Model α) : List α :=
  m.objective.terms.values ++ (m.constraints.values.flatMap fun c => c.rhs :: c.lhs.terms.values) ++
    m.vars.values.flatMap fun v => v.lower.toList ++ v.upper.toList

end Contents

/-- A model that can be recovered from its text. -/
structure Legible (m : Model Float) : Prop where
  /-- Names are identifiers. -/
  names : ∀ name ∈ m.occurringNames, Identifier.isName name = true
  /-- Numbers are numbers; they may be infinite. -/
  numbers : ∀ x ∈ m.numbers, x.isNaN = false
  /-- Constraints are made by comparing polynomials. -/
  comparisons : ∀ c ∈ m.constraints.values, c.IsComparison
  /-- The quadratic coefficients of the objective stay finite when they are doubled. -/
  doubled : ∀ t ∈ m.objective.quadraticTerms,
    t.2.2.isFinite = true → (t.2.2 * 2).isFinite = true

namespace Legible

variable {m : Model Float} (h : m.Legible)
include h

theorem registered {name : String} (member : name ∈ m.vars.names) : Solid name :=
  Identifier.solid_of_isName (h.names name
    (List.mem_append_left _ (List.mem_append_left _ member)))

theorem objective {t : Monomial × Float} (stored : t ∈ m.objective.toList) :
    (∀ x ∈ t.1.names, Solid x) ∧ t.2.isNaN = false := by
  refine ⟨fun x member => Identifier.solid_of_isName (h.names x ?_), h.numbers _ ?_⟩
  · exact List.mem_append_left _ (List.mem_append_right _
      (List.mem_flatMap.mpr ⟨_, List.mem_map_of_mem stored, member⟩))
  · exact List.mem_append_left _ (List.mem_append_left _ (List.mem_map_of_mem stored))

theorem constraint {c : Constraint Float} (given : c ∈ m.constraints.values)
    {t : Monomial × Float} (stored : t ∈ c.lhs.toList) :
    (∀ x ∈ t.1.names, Solid x) ∧ t.2.isNaN = false := by
  refine ⟨fun x member => Identifier.solid_of_isName (h.names x ?_), h.numbers _ ?_⟩
  · exact List.mem_append_right _ (List.mem_flatMap.mpr
      ⟨c, given, List.mem_flatMap.mpr ⟨_, List.mem_map_of_mem stored, member⟩⟩)
  · exact List.mem_append_left _ (List.mem_append_right _ (List.mem_flatMap.mpr
      ⟨c, given, List.mem_cons_of_mem _ (List.mem_map_of_mem stored)⟩))

theorem rhs {c : Constraint Float} (given : c ∈ m.constraints.values) : c.rhs.isNaN = false :=
  h.numbers _ (List.mem_append_left _ (List.mem_append_right _
    (List.mem_flatMap.mpr ⟨c, given, List.mem_cons_self⟩)))

theorem bounds {v : Variable Float} (registered : v ∈ m.vars.values) :
    (∀ x ∈ v.lower, x.isNaN = false) ∧ ∀ x ∈ v.upper, x.isNaN = false := by
  have bound {x : Float} (member : x ∈ v.lower.toList ++ v.upper.toList) : x.isNaN = false :=
    h.numbers x (List.mem_append_right _ (List.mem_flatMap.mpr ⟨v, registered, member⟩))
  exact ⟨fun x lower => bound (List.mem_append_left _ (Option.mem_toList.mpr lower)),
    fun x upper => bound (List.mem_append_right _ (Option.mem_toList.mpr upper))⟩

end Legible

end Model

namespace Lp

section Bodies

variable {α : Type} {p p' : Polynomial α} {filler filler' : Option String} {body : Body α}

/-- The body of a polynomial lists its linear and its quadratic terms, or fills in for them. -/
theorem exists_body (h : Body.ofPolynomial p filler = .ok body) :
    (body = .terms p.linearTerms p.quadraticTerms ∧
        (p.linearTerms ≠ [] ∨ p.quadraticTerms ≠ [])) ∨
      ∃ name, filler = some name ∧ body = .zero name ∧ p.linearTerms = [] ∧
        p.quadraticTerms = [] := by
  unfold Body.ofPolynomial at h
  split at h
  next name linear quadratic =>
    cases h
    exact .inr ⟨name, rfl, rfl, linear, quadratic⟩
  next => cases h
  next padded refused =>
    cases h
    refine .inl ⟨rfl, ?_⟩
    by_contra none
    rw [not_or, not_not, not_not] at none
    exact (Option.eq_none_or_eq_some _).elim (refused none.1 none.2)
      fun ⟨name, given⟩ => padded name none.1 none.2 given

/-- A body tells the terms that it was made from. -/
theorem terms_eq_of_ofPolynomial (h : Body.ofPolynomial p filler = .ok body)
    (h' : Body.ofPolynomial p' filler' = .ok body) :
    p.linearTerms = p'.linearTerms ∧ p.quadraticTerms = p'.quadraticTerms := by
  obtain ⟨rfl, -⟩ | ⟨name, -, rfl, linear, quadratic⟩ := exists_body h
  · obtain ⟨same, -⟩ | ⟨name, -, same, -, -⟩ := exists_body h'
    · exact Body.terms.inj same
    · cases same
  · obtain ⟨same, -⟩ | ⟨name, -, -, linear', quadratic'⟩ := exists_body h'
    · cases same
    · exact ⟨linear.trans linear'.symm, quadratic.trans quadratic'.symm⟩

/-- The body of a polynomial with proper names and numbers can be read. -/
theorem legible_of_ofPolynomial {p : Polynomial Float} {body : Body Float} {factor : Float}
    (h : Body.ofPolynomial p filler = .ok body)
    (padded : ∀ name ∈ filler, Solid name)
    (proper : ∀ t ∈ p.toList, (∀ x ∈ t.1.names, Solid x) ∧ t.2.isNaN = false)
    (fits : ∀ t ∈ p.quadraticTerms, t.2.2.isNaN = false → t.2.2.isFinite = true →
      (t.2.2 * factor).isFinite = true) : body.Legible factor := by
  obtain ⟨rfl, nonempty⟩ | ⟨name, given, rfl, -, -⟩ := exists_body h
  · refine ⟨nonempty, fun ⟨a, c⟩ member => ?_, fun ⟨a, b, c⟩ member => ?_⟩
    · obtain ⟨solid, number⟩ := proper _ (Polynomial.mem_linearTerms_iff.mp member)
      exact ⟨solid a (by simp), number⟩
    · obtain ⟨solid, number⟩ := proper _ (Polynomial.mem_quadraticTerms_iff.mp member)
      exact ⟨solid a (by simp), solid b (by simp), number, fits _ member number⟩
  · exact padded name given

/-- A polynomial of degree at most two without constant term is told by its body. -/
theorem lhs_eq_of_body [Scalar α] {c c' : Constraint α} (h : c.IsComparison)
    (h' : c'.IsComparison) (low : c.lhs.degree ≤ 2) (low' : c'.lhs.degree ≤ 2)
    (made : Body.ofPolynomial c.lhs filler = .ok body)
    (made' : Body.ofPolynomial c'.lhs filler' = .ok body) : c.lhs = c'.lhs := by
  obtain ⟨linear, quadratic⟩ := terms_eq_of_ofPolynomial made made'
  refine Polynomial.eq_of_terms h.ordered h'.ordered low low' (fun x => ?_) linear quadratic
  exact iff_of_false (fun stored => h.one_notMem (List.mem_map_of_mem stored))
    fun stored => h'.one_notMem (List.mem_map_of_mem stored)

end Bodies

section Documents

/-- The variable that pads empty sums. -/
def fillerOf {α : Type} (m : Model α) : Option String := m.vars.values.head?.map Variable.name

/-- What the document of a model is made of. -/
structure Describes {α : Type} [Scalar α] (m : Model α) (d : Document α) : Prop where
  objectiveDegree : m.objective.degree ≤ 2
  rowDegrees : ∀ e ∈ m.constraints.entries, e.2.lhs.degree ≤ 2
  direction : d.direction = m.direction
  objective : Body.ofPolynomial m.objective (fillerOf m) = .ok d.objective
  constant : d.constant =
    if m.objective.constantTerm == 0 then none else some m.objective.constantTerm
  rows : List.Forall₂ (fun e r => Body.ofPolynomial e.2.lhs (fillerOf m) = .ok r.body ∧
      r.id = e.1 ∧ r.relation = e.2.comparison.relaxed ∧ r.rhs = e.2.rhs)
    m.constraints.entries d.rows
  bounds : d.bounds = boundsOf m.vars.values
  general : d.general = namesOf .integer m.vars.values
  binary : d.binary = namesOf .binary m.vars.values

theorem describes_of_ofModel {α : Type} [Scalar α] {m : Model α} {d : Document α}
    (h : Document.ofModel m = .ok d) : Describes m d := by
  obtain ⟨⟨⟩, limited, h⟩ := Build.bind_eq_ok_iff.mp h
  obtain ⟨⟨⟩, objectiveDegree, rowDegrees⟩ := Build.bind_eq_ok_iff.mp limited
  obtain ⟨objective, body, h⟩ := Build.bind_eq_ok_iff.mp h
  obtain ⟨rows, made, h⟩ := Build.bind_eq_ok_iff.mp h
  cases h
  exact {
    objectiveDegree := limitDegree_eq_ok_iff.mp objectiveDegree
    rowDegrees := fun e member =>
      limitDegree_eq_ok_iff.mp (Build.forM_ok.mp rowDegrees e member)
    direction := rfl
    objective := body
    constant := rfl
    rows := (Build.mapM_eq_ok_iff.mp made).imp fun e r row => by
      obtain ⟨body, made, row⟩ := Build.bind_eq_ok_iff.mp row
      cases row
      exact ⟨made, rfl, rfl, rfl⟩
    bounds := rfl
    general := rfl
    binary := rfl }

variable [Naming Float] {m m' : Model Float} {d d' : Document Float}

theorem solid_of_registered (consistent : m.Consistent) (h : m.Legible) {v : Variable Float}
    (registered : v ∈ m.vars.values) : Solid v.name :=
  h.registered (consistent.names_eq ▸ List.mem_map_of_mem registered)

theorem solid_filler (consistent : m.Consistent) (h : m.Legible) :
    ∀ name ∈ fillerOf m, Solid name := by
  intro name given
  obtain ⟨v, first, rfl⟩ := Option.map_eq_some_iff.mp given
  exact solid_of_registered consistent h (List.mem_of_mem_head? first)

/-- The identifier of a row has no blanks in it. -/
theorem solid_of_numbered (consistent : m.Consistent) {e : String × Constraint Float}
    (stored : e ∈ m.constraints.entries) : Solid e.1 :=
  Identifier.solid_of_isName (consistent.numbered.isName (List.mem_map_of_mem stored))

/-- The document of a legible model can be read. -/
theorem Describes.legible (described : Describes m d) (consistent : m.Consistent)
    (normal : m.objective.Normal) (h : m.Legible) : d.Legible where
  objective := legible_of_ofPolynomial described.objective (solid_filler consistent h)
    (fun t stored => h.objective stored) (fun t member _ => h.doubled t member)
  constant c noted := by
    rw [described.constant] at noted
    exact (h.objective ((normal.constant_eq_some_iff (by decide +kernel)).mp noted)).2
  rows := by
    intro r member
    obtain ⟨e, stored, body, id, relation, rhs⟩ := described.rows.exists_left member
    have given : e.2 ∈ m.constraints.values := List.mem_map_of_mem stored
    exact {
      id := id ▸ solid_of_numbered consistent stored
      body := legible_of_ofPolynomial body (solid_filler consistent h)
        (fun t stored => h.constraint given stored)
        (fun t _ number finite => by rwa [Binary64.mul_one_of_number number])
      relation := by
        rw [relation]
        cases e.2.comparison <;> rfl
      rhs := rhs ▸ h.rhs given }
  bounds := by
    rw [described.bounds]
    refine List.forall_mem_map.mpr fun v kept => ?_
    have registered := List.mem_of_mem_filter kept
    exact ⟨solid_of_registered consistent h registered, (h.bounds registered).1,
      (h.bounds registered).2⟩
  general := by
    rw [described.general]
    exact List.forall_mem_map.mpr fun v kept =>
      solid_of_registered consistent h (List.mem_of_mem_filter kept)
  binary := by
    rw [described.binary]
    exact List.forall_mem_map.mpr fun v kept =>
      solid_of_registered consistent h (List.mem_of_mem_filter kept)

/-- Registered variables of the same name are the same. -/
theorem eq_of_name_eq (consistent : m.Consistent) (distinct : m.Distinct) {v w : Variable Float}
    (registered : v ∈ m.vars.values) (registered' : w ∈ m.vars.values) (same : v.name = w.name) :
    v = w := by
  have nodup : (m.vars.values.map Variable.name).Nodup := consistent.names_eq ▸ distinct.vars
  exact List.inj_on_of_nodup_map nodup registered registered' same

/-- The kind of a variable is told by the list of the integer ones. -/
theorem mem_namesOf_iff (consistent : m.Consistent) (distinct : m.Distinct)
    {v : Variable Float} (registered : v ∈ m.vars.values) {kind : Variable.Kind} :
    v.name ∈ namesOf kind m.vars.values ↔ v.kind = kind := by
  refine ⟨fun listed => ?_, fun same => ?_⟩
  · obtain ⟨w, kept, same⟩ := List.mem_map.mp listed
    obtain ⟨registered', kind⟩ := List.mem_filter.mp kept
    obtain rfl := eq_of_name_eq consistent distinct registered' registered same
    exact of_decide_eq_true kind
  · exact List.mem_map_of_mem (List.mem_filter.mpr ⟨registered, decide_eq_true same⟩)

omit [Naming Float] in
/-- The objective is told by its body and the comment on its constant term. -/
theorem objective_eq (described : Describes m d) (described' : Describes m' d')
    (normal : m.objective.Normal) (normal' : m'.objective.Normal)
    (objective : d.objective = d'.objective) (constant : d.constant = d'.constant) :
    m.objective = m'.objective := by
  have zero : ((Scalar.toZero.zero : Float) == 0) = true := by decide +kernel
  obtain ⟨linear, quadratic⟩ := terms_eq_of_ofPolynomial described.objective
    (objective ▸ described'.objective)
  refine Polynomial.eq_of_terms normal.ordered normal'.ordered described.objectiveDegree
    described'.objectiveDegree (fun c => ?_) linear quadratic
  rw [← normal.constant_eq_some_iff zero, ← normal'.constant_eq_some_iff zero,
    ← described.constant, ← described'.constant, constant]

/-- What the text tells of a constraint. -/
def rowContent (e : String × Constraint Float) : String × Polynomial Float × Comparison × Float :=
  (e.1, e.2.lhs, e.2.comparison.relaxed, e.2.rhs)

omit [Naming Float] in
theorem rows_eq (described : Describes m d) (described' : Describes m' d')
    (comparisons : ∀ c ∈ m.constraints.values, c.IsComparison)
    (comparisons' : ∀ c ∈ m'.constraints.values, c.IsComparison) (rows : d.rows = d'.rows) :
    m.constraints.entries.map rowContent = m'.constraints.entries.map rowContent := by
  refine described.rows.map_eq (rows ▸ described'.rows) ?_
  rintro e stored e' stored' r ⟨body, id, relation, rhs⟩ ⟨body', id', relation', rhs'⟩
  have lhs := lhs_eq_of_body (comparisons e.2 (List.mem_map_of_mem stored))
    (comparisons' e'.2 (List.mem_map_of_mem stored')) (described.rowDegrees e stored)
    (described'.rowDegrees e' stored') body body'
  unfold rowContent
  rw [← id, ← id', lhs, ← relation, ← relation', ← rhs, ← rhs']

/-- What the text tells of a variable that is not binary. -/
def variableContent (v : Variable Float) : String × Variable.Kind × Float × Float :=
  (v.name, v.kind, v.interval)

theorem variables_eq (described : Describes m d) (described' : Describes m' d')
    (reachable : m.Reachable) (reachable' : m'.Reachable)
    (bounds : d.bounds.map Bound.closed = d'.bounds.map Bound.closed)
    (general : d.general = d'.general) :
    (m.vars.values.filter fun v => v.kind ≠ .binary).map variableContent =
      (m'.vars.values.filter fun v => v.kind ≠ .binary).map variableContent := by
  rw [described.bounds, described'.bounds, boundsOf, boundsOf, List.map_map, List.map_map] at bounds
  rw [described.general, described'.general] at general
  refine map_eq_of_map_eq (fun v kept v' kept' same => ?_) bounds
  obtain ⟨registered, kind⟩ := List.mem_filter.mp kept
  obtain ⟨registered', kind'⟩ := List.mem_filter.mp kept'
  simp only [Function.comp, Bound.closed, Bound.mk.injEq, Option.some.injEq] at same
  obtain ⟨names, lower, upper⟩ := same
  have integer : v.kind = .integer ↔ v'.kind = .integer := by
    rw [← mem_namesOf_iff reachable.consistent reachable.distinct registered,
      ← mem_namesOf_iff reachable'.consistent reachable'.distinct registered', names, general]
  have kinds : v.kind = v'.kind := by
    cases first : v.kind <;> cases second : v'.kind <;> simp_all
  unfold variableContent Variable.interval
  rw [names, kinds, lower, upper]

end Documents

/-- Legible models with the same text have the same direction, the same objective with its constant
term, the same rows in order, up to the strictness of relations, the same variables in order with
their kinds and intervals, as far as they are not binary, and the same binary variables in order. -/
theorem content_eq_of_write [Naming Float] {m m' : Model Float} {text : String}
    (reachable : m.Reachable) (reachable' : m'.Reachable) (legible : m.Legible)
    (legible' : m'.Legible) (written : write m = .ok text) (written' : write m' = .ok text) :
    m.direction = m'.direction ∧ m.objective = m'.objective ∧
    m.constraints.entries.map rowContent = m'.constraints.entries.map rowContent ∧
    (m.vars.values.filter fun v => v.kind ≠ .binary).map variableContent =
      (m'.vars.values.filter fun v => v.kind ≠ .binary).map variableContent ∧
    namesOf .binary m.vars.values = namesOf .binary m'.vars.values := by
  obtain ⟨d, made, spelled⟩ := Build.bind_eq_ok_iff.mp written
  obtain ⟨d', made', spelled'⟩ := Build.bind_eq_ok_iff.mp written'
  have described := describes_of_ofModel made
  have described' := describes_of_ofModel made'
  have normal := reachable.normal_objective
  have normal' := reachable'.normal_objective
  have texts : d.text = d'.text :=
    (Except.ok.inj spelled).trans (Except.ok.inj spelled').symm
  have same := Document.closed_eq_of_text (described.legible reachable.consistent normal legible)
    (described'.legible reachable'.consistent normal' legible') texts
  simp only [Document.closed, Document.mk.injEq] at same
  obtain ⟨direction, objective, constant, rows, bounds, general, binary⟩ := same
  refine ⟨?_, objective_eq described described' normal normal' objective constant,
    rows_eq described described' legible.comparisons legible'.comparisons rows,
    variables_eq described described' reachable reachable' bounds general, ?_⟩
  · rw [← described.direction, ← described'.direction, direction]
  · rw [← described.binary, ← described'.binary, binary]

/-- Two models of a square with a constant: in one the bound is strict, the lower bound of the
variable is missing and the binary variable comes first. -/
theorem square_written_twice :
    let x : Polynomial Float := .var "x"
    let b : Polynomial Float := .var "b"
    let objective : Operation Float :=
      .increaseObjective (((x.multiply x).scale 0.5).add (b.add (.constant 7)))
    let row (comparison : Comparison) : Constraint Float :=
      .compare (x.add b) comparison (.constant 3)
    let m : Model Float := .build .minimize .standard [.registerAs "b" .binary,
      .registerAs "x" (.atMost .free 4), objective, .addConstraint (row .lt)]
    let m' : Model Float := .build .minimize .standard [
      .registerAs "x" (.between .free (-Binary64.infinity) 4), .registerAs "b" .binary, objective,
      .addConstraint (row .le)]
    ∃ text, write m = .ok text ∧ write m' = .ok text ∧ m.vars.names ≠ m'.vars.names ∧
      m.objective = m'.objective ∧
      m.constraints.entries.map rowContent = m'.constraints.entries.map rowContent := by
  intro x b objective row m m'
  have reachable : m.Reachable := Model.reachable_build _ _ _
  have reachable' : m'.Reachable := Model.reachable_build _ _ _
  have legible (comparison : Comparison) {m : Model Float}
      (rows : m.constraints.values = [row comparison])
      (names : ∀ name ∈ m.occurringNames, Identifier.isName name = true)
      (numbers : ∀ x ∈ m.numbers, x.isNaN = false)
      (doubled : ∀ t ∈ m.objective.quadraticTerms,
        t.2.2.isFinite = true → (t.2.2 * 2).isFinite = true) : m.Legible := by
    refine ⟨names, numbers, ?_, doubled⟩
    rw [rows]
    rintro c (_ | ⟨_, none⟩)
    · exact ⟨_, _, _, (Polynomial.ordered_var "x").add b, rfl⟩
    · cases none
  have written : write m = .ok ("Minimize\n obj: +1 b + [ +1 x ^ 2 ] / 2\n" ++
      "\\ objective constant +7\nSubject To\n c00000: +1 b +1 x <= +3\nBounds\n" ++
      " -inf <= x <= 4\nBinary\n b\nEnd\n") := by decide +kernel
  have written' : write m' = write m := by decide +kernel
  have rows : m.constraints.values = [row .lt] := by decide +kernel
  have rows' : m'.constraints.values = [row .le] := by decide +kernel
  obtain ⟨-, objectives, constraints, -, -⟩ := content_eq_of_write reachable reachable'
    (legible .lt rows (by decide +kernel) (by decide +kernel) (by decide +kernel))
    (legible .le rows' (by decide +kernel) (by decide +kernel) (by decide +kernel)) written
    (written'.trans written)
  exact ⟨_, written, written'.trans written, by decide +kernel, objectives, constraints⟩

end Lp

end MipModel
