import Mathlib
import MipModel.Conic.Form
import MipModel.Linearization.Naming
import MipModel.Proofs.Mentions
import MipModel.Proofs.WrittenDomains

/-!
# Names in written models

The sections of a written model declare the variables that are registered, and no others. The
objective and the rows hold the names that the model mentions, registered or not: writing a model
does not look them up. So a text is closed, in that every name in its objective and its rows is
declared, when all that the model mentions is registered (`text_closed_iff`).

The conic form needs a column for every name and refuses models with names that have none.
-/

namespace MipModel

open Build

def Model.SelfContained {α : Type} (m : Model α) : Prop :=
  ∀ name, m.Mentions name → m.vars.contains name = true

namespace Lp

/-- The names in the objective and in the rows of a document. -/
def Document.occurring {α : Type} (d : Document α) : List String :=
  d.objective.names ++ d.rows.flatMap fun r => r.body.names

/-- A section of a text declares a variable: it bounds the variable or lists it as a binary one. -/
def Declared (lines : List String) (name : String) : Prop :=
  (∃ b : Bound Float, b.name = name ∧ b.text ∈ contents "Bounds" lines) ∨
    " " ++ name ∈ contents "Binary" lines

section Bodies

variable {α : Type} {p : Polynomial α} {filler : Option String} {body : Body α}

/-- All variables of a polynomial of degree at most two are written. -/
theorem over_names_of_ofPolynomial (low : p.degree ≤ 2)
    (made : Body.ofPolynomial p filler = .ok body) : p.Over fun name => name ∈ body.names := by
  obtain ⟨rfl, -⟩ | ⟨padding, -, rfl, linear, quadratic⟩ := exists_body made
  · refine Polynomial.over_of_degree_le_two low (fun t listed => ?_) fun t listed => ?_
    · exact List.mem_append_left _ (List.mem_map_of_mem listed)
    · have inside {name : String} (named : name ∈ [t.1, t.2.1]) :
          name ∈ p.quadraticTerms.flatMap fun t => [t.1, t.2.1] :=
        List.mem_flatMap.mpr ⟨t, listed, named⟩
      exact ⟨List.mem_append_right _ (inside (by simp)), List.mem_append_right _ (inside (by simp))⟩
  · refine Polynomial.over_of_degree_le_two low ?_ ?_
    · rw [linear]
      exact fun t none => absurd none List.not_mem_nil
    · rw [quadratic]
      exact fun t none => absurd none List.not_mem_nil

end Bodies

section Texts

variable [Naming Float] {m : Model Float} {d : Document Float} {name : String}

/-- The sections declare the registered variables. -/
theorem declared_iff (described : Describes m d) (consistent : m.Consistent) :
    Declared d.lines name ↔ m.vars.contains name = true := by
  rw [Declared, Document.contents_bounds, Document.contents_binary, mem_titled_iff,
    described.bounds, described.binary]
  constructor
  · rintro (⟨b, rfl, listed⟩ | listed)
    · obtain ⟨written, bound, same⟩ := List.mem_map.mp listed
      obtain ⟨v, kept, rfl⟩ := List.mem_map.mp bound
      rw [← (Bound.eq_of_text same).1]
      exact consistent.contains_name (List.mem_filter.mp kept).1
    · obtain ⟨v, kept, rfl⟩ := List.mem_map.mp listed
      exact consistent.contains_name (List.mem_filter.mp kept).1
  · intro known
    rw [Registry.contains_eq_true_iff, ← consistent.names_eq] at known
    obtain ⟨v, member, rfl⟩ := List.mem_map.mp known
    by_cases binary : v.kind = .binary
    · exact .inr (List.mem_map_of_mem (List.mem_filter.mpr ⟨member, decide_eq_true binary⟩))
    · exact .inl ⟨.ofVariable v, rfl, List.mem_map_of_mem (List.mem_map.mpr
        ⟨v, List.mem_filter.mpr ⟨member, decide_eq_true binary⟩, rfl⟩)⟩

omit [Naming Float] in
theorem mem_occurring_of_mentions (described : Describes m d) (mentioned : m.Mentions name) :
    name ∈ d.occurring := by
  obtain inside | ⟨c, stored, inside⟩ := mentioned
  · have written := over_names_of_ofPolynomial described.objectiveDegree described.objective
    exact List.mem_append_left _ (Polynomial.over_iff_occurrences.mp written name inside)
  · obtain ⟨e, entry, rfl⟩ := List.mem_map.mp stored
    obtain ⟨r, row, body, -⟩ := described.rows.exists_right entry
    have written := over_names_of_ofPolynomial (described.rowDegrees e entry) body
    exact List.mem_append_right _ (List.mem_flatMap.mpr
      ⟨r, row, Polynomial.over_iff_occurrences.mp written name inside⟩)

omit [Naming Float] in
theorem mentions_of_mem_occurring (described : Describes m d) (member : name ∈ d.occurring) :
    m.Mentions name ∨ fillerOf m = some name := by
  obtain objective | rows := List.mem_append.mp member
  · exact (mem_names_of_ofPolynomial described.objective objective).imp_left .inl
  · obtain ⟨r, row, inside⟩ := List.mem_flatMap.mp rows
    obtain ⟨e, entry, body, -⟩ := described.rows.exists_left row
    exact (mem_names_of_ofPolynomial body inside).imp_left fun occurs =>
      .inr ⟨e.2, List.mem_map_of_mem entry, occurs⟩

/-- A text is closed when the model mentions registered variables only. -/
theorem closed_iff_selfContained (described : Describes m d) (consistent : m.Consistent) :
    (∀ name ∈ d.occurring, Declared d.lines name) ↔ m.SelfContained := by
  simp only [declared_iff described consistent]
  constructor
  · exact fun closed name mentioned => closed name (mem_occurring_of_mentions described mentioned)
  · intro contained name member
    obtain mentioned | padding := mentions_of_mem_occurring described member
    · exact contained name mentioned
    · obtain ⟨v, first, rfl⟩ := Option.map_eq_some_iff.mp padding
      exact consistent.contains_name (List.mem_of_mem_head? first)

end Texts

end Lp

namespace Conic

section Places

variable {α : Type} {columns : List String} {p : Polynomial α}

theorem mem_of_linearEntries {entries : List (Nat × α)}
    (h : linearEntries columns p = .ok entries) : ∀ t ∈ p.linearTerms, t.1 ∈ columns := by
  intro t listed
  obtain ⟨e, -, placed⟩ := (mapM_eq_ok_iff.mp h).exists_right listed
  obtain ⟨j, found, -⟩ := bind_eq_ok_iff.mp placed
  exact List.mem_of_getElem? (getElem?_of_columnOf found)

def Missing (M : String → Prop) (columns : List String) (e : Error α) : Prop :=
  ∃ name, M name ∧ name ∉ columns ∧ e = .undefinedVariable name

variable {M : String → Prop}

theorem failsWith_columnOf {name : String} (mentioned : M name) :
    FailsWith (Missing M columns) (columnOf (α := α) columns name) := by
  unfold columnOf
  split
  · exact .ok _
  next none => exact .error ⟨name, mentioned, List.idxOf?_eq_none_iff.mp none, rfl⟩

theorem failsWith_linearEntries (mentioned : p.Over M) :
    FailsWith (Missing M columns) (linearEntries columns p) := by
  refine .mapM fun t listed => (failsWith_columnOf ?_).bind fun j => .ok _
  exact mentioned.names_of_mem (Polynomial.mem_linearTerms_iff.mp listed) t.1 (by simp)

variable [Scalar α]

theorem mem_of_quadraticEntry {t : String × String × α} {e : Triplet α}
    (h : quadraticEntry columns t = .ok e) : t.1 ∈ columns ∧ t.2.1 ∈ columns := by
  obtain ⟨i, first, h⟩ := bind_eq_ok_iff.mp h
  obtain ⟨j, second, -⟩ := bind_eq_ok_iff.mp h
  exact ⟨List.mem_of_getElem? (getElem?_of_columnOf first),
    List.mem_of_getElem? (getElem?_of_columnOf second)⟩

/-- A constraint with a row is linear, and the row has its terms by column. -/
theorem linear_of_constraintRow {id : String} {c : Constraint α} {laid : Comparison × Row α}
    (h : constraintRow columns id c = .ok laid) :
    c.degree ≤ 1 ∧ ∃ entries, linearEntries columns c.lhs = .ok entries := by
  by_cases high : c.degree > 1
  · simp only [constraintRow, high, if_true] at h
    cases h
  · simp only [constraintRow, high, if_false, bind_eq_ok_iff] at h
    obtain ⟨entries, placed, -⟩ := h
    exact ⟨Nat.le_of_not_lt high, entries, placed⟩

/-- All variables of a linear constraint with a row have columns. -/
theorem over_of_constraintRow {id : String} {c : Constraint α} {laid : Comparison × Row α}
    (h : constraintRow columns id c = .ok laid) : c.lhs.Over fun name => name ∈ columns := by
  obtain ⟨low, entries, placed⟩ := linear_of_constraintRow h
  have low : c.lhs.degree ≤ 1 := low
  refine Polynomial.over_of_degree_le_two (low.trans (by decide)) (mem_of_linearEntries placed) ?_
  rw [Polynomial.quadraticTerms_eq_nil low]
  exact fun t none => absurd none List.not_mem_nil

theorem failsWith_quadraticEntry {t : String × String × α} (first : M t.1) (second : M t.2.1) :
    FailsWith (Missing M columns) (quadraticEntry columns t) :=
  (failsWith_columnOf first).bind fun _ => (failsWith_columnOf second).bind fun _ => .ok _

theorem failsWith_constraintRow {id : String} {c : Constraint α} (low : c.lhs.degree ≤ 1)
    (mentioned : c.lhs.Over M) : FailsWith (Missing M columns) (constraintRow columns id c) := by
  have linear : ¬c.degree > 1 := Nat.not_lt.mpr low
  simp only [constraintRow, linear, if_false]
  refine (failsWith_linearEntries mentioned).bind fun entries => ?_
  split <;> exact .ok _

end Places

section Forms

variable {m : Model Float}

/-- The polynomial to be minimized mentions what the objective does. -/
theorem keys_minimand (normal : m.objective.Normal) :
    (minimand m).terms.keys = m.objective.terms.keys := by
  unfold minimand
  split
  · rfl
  · exact normal.keys_scale rfl fun c => Binary64.mul_neg_one_beq_zero

variable [Naming Float]

/-- A model with a conic form mentions registered variables only. -/
theorem selfContained_of_ofModel [Compression Float] (reachable : m.Reachable) {form : Form Float}
    (made : Form.ofModel m = .ok form) : m.SelfContained := by
  simp only [Form.ofModel, bind_eq_ok_iff] at made
  obtain ⟨_, -, _, degree, linear, placed, quadratic, placed', rows, laid, -⟩ := made
  rw [reachable.consistent.names_eq] at placed placed' laid
  have objective : (minimand m).Over fun name => name ∈ m.vars.names := by
    refine Polynomial.over_of_degree_le_two (Lp.limitDegree_eq_ok_iff.mp degree)
      (mem_of_linearEntries placed) fun t listed => ?_
    obtain ⟨e, -, entered⟩ := (mapM_eq_ok_iff.mp placed').exists_right listed
    exact mem_of_quadraticEntry entered
  intro name mentioned
  rw [Registry.contains_eq_true_iff]
  obtain inside | ⟨c, stored, inside⟩ := mentioned
  · rw [Polynomial.Over, keys_minimand reachable.normal_objective] at objective
    exact Polynomial.over_iff_occurrences.mp objective name inside
  · obtain ⟨e, entry, rfl⟩ := List.mem_map.mp stored
    obtain ⟨row, -, here⟩ := (mapM_eq_ok_iff.mp laid).exists_right entry
    exact Polynomial.over_iff_occurrences.mp (over_of_constraintRow here) name inside

omit [Naming Float] in
theorem checkContinuous_of_forall {vars : List (Variable Float)}
    (continuous : ∀ v ∈ vars, v.kind = .continuous) : checkContinuous vars = .ok () := by
  have none : vars.find? (fun v => v.kind ≠ .continuous) = none := by simpa using continuous
  rw [checkContinuous, none]

/-- Where the conic form supports kinds and degrees, it can only fail for a name that is mentioned
and not registered. -/
theorem failsWith_ofModel [Compression Float] (reachable : m.Reachable)
    (continuous : ∀ v ∈ m.vars.values, v.kind = .continuous) (degree : m.objective.degree ≤ 2)
    (linear : ∀ c ∈ m.constraints.values, c.lhs.degree ≤ 1) :
    FailsWith (Missing m.Mentions m.vars.names) (Form.ofModel m) := by
  have keys := keys_minimand reachable.normal_objective
  have mentioned : (minimand m).Over m.Mentions := by
    rw [Polynomial.Over, keys]
    exact Polynomial.over_iff_occurrences.mpr fun name => .inl
  have low : (minimand m).degree ≤ 2 := by
    rw [Polynomial.degree_le_iff, keys]
    exact Polynomial.degree_le_iff.mp degree
  rw [← reachable.consistent.names_eq]
  refine .bind (.of_ok (checkContinuous_of_forall continuous)) fun _ => ?_
  refine .bind (.of_ok (Lp.limitDegree_eq_ok_iff.mpr low)) fun _ => ?_
  refine (failsWith_linearEntries mentioned).bind fun _ => ?_
  refine .bind (.mapM fun t listed => ?_) fun _ => .bind (.mapM fun e entry => ?_) fun _ => .ok _
  · have names := mentioned.names_of_mem (Polynomial.mem_quadraticTerms_iff.mp listed)
    exact failsWith_quadraticEntry (names t.1 (by simp)) (names t.2.1 (by simp))
  · have stored : e.2 ∈ m.constraints.values := List.mem_map_of_mem entry
    exact failsWith_constraintRow (linear e.2 stored)
      (Polynomial.over_iff_occurrences.mpr fun name inside => .inr ⟨e.2, stored, inside⟩)

end Forms

end Conic

section Texts

open Lp

/-- The sections of a text declare the registered variables. So the text is closed when all that the
model mentions is registered; what else a model mentions was handed over with some step.

Only models that mention nothing else have a conic form. Where the form supports kinds and degrees,
another model is refused for a name that it mentions and that is not registered. -/
theorem text_closed_iff [Naming Float] [Compression Float] (direction : Direction)
    (settings : Settings Float) (ops : List (Operation Float)) :
    let m := Model.build direction settings ops
    (∀ S, (∀ op ∈ ops, op.Over S) → ∀ name, m.Mentions name →
      m.vars.contains name = true ∨ S name) ∧
    (∀ text, Lp.write m = .ok text → ∃ d, Document.ofModel m = .ok d ∧ text = d.text ∧
      (∀ name, m.Mentions name → name ∈ d.occurring) ∧
      (∀ name, Declared d.lines name ↔ m.vars.contains name = true) ∧
      ((∀ name ∈ d.occurring, Declared d.lines name) ↔ m.SelfContained)) ∧
    (∀ form, Conic.Form.ofModel m = .ok form → m.SelfContained) ∧
    ((∀ v ∈ m.vars.values, v.kind = .continuous) → m.objective.degree ≤ 2 →
      (∀ c ∈ m.constraints.values, c.lhs.degree ≤ 1) → ¬m.SelfContained →
      ∃ name, m.Mentions name ∧ m.vars.contains name = false ∧
        Conic.Form.ofModel m = .error (.undefinedVariable name)) := by
  intro m
  have reachable : m.Reachable := Model.reachable_build direction settings ops
  have consistent := reachable.consistent
  refine ⟨fun S given name => known_of_build given, fun text written => ?_,
    fun form => Conic.selfContained_of_ofModel reachable,
    fun continuous degree linear foreign => ?_⟩
  · obtain ⟨d, made, spelled⟩ := bind_eq_ok_iff.mp written
    obtain rfl : d.text = text := Except.ok.inj spelled
    have described := describes_of_ofModel made
    exact ⟨d, made, rfl, fun name => mem_occurring_of_mentions described,
      fun name => declared_iff described consistent,
      closed_iff_selfContained described consistent⟩
  · cases outcome : Conic.Form.ofModel m with
    | ok form => exact absurd (Conic.selfContained_of_ofModel reachable outcome) foreign
    | error e =>
        obtain ⟨name, mentioned, absent, rfl⟩ :=
          Conic.failsWith_ofModel reachable continuous degree linear e outcome
        exact ⟨name, mentioned, Registry.contains_eq_false_iff.mpr absent, rfl⟩

/-- The steps mention a registered variable only, so the text is closed. -/
theorem registered_text_closed :
    let row : Constraint Float := .compare (.var "x") .ge (.constant 1)
    let ops : List (Operation Float) :=
      [.registerAs "x" .free, .addConstraint row, .increaseObjective (.var "x")]
    ∃ d : Document Float, Lp.write (.build .minimize .standard ops) = .ok d.text ∧
      ∀ name ∈ d.occurring, Declared d.lines name := by
  intro row ops
  obtain ⟨known, written, -, -⟩ := text_closed_iff .minimize .standard ops
  have own : (Polynomial.var "x" : Polynomial Float).Over fun name => name = "x" :=
    Polynomial.over_var rfl
  have given : ∀ op ∈ ops, op.Over fun name => name = "x" := by
    simp only [ops, List.forall_mem_cons]
    exact ⟨trivial, Constraint.over_compare own (Polynomial.over_constant 1) .ge, own, nofun⟩
  have contained : (Model.build .minimize .standard ops).SelfContained := by
    intro name mentioned
    obtain registered | rfl := known _ given name mentioned
    · exact registered
    · decide +kernel
  have text : Lp.write (.build .minimize .standard ops) = .ok
      "Minimize\n obj: +1 x\nSubject To\n c00000: +1 x >= +1\nBounds\n x free\nEnd\n" := by
    decide +kernel
  obtain ⟨d, -, same, -, -, closed⟩ := written _ text
  exact ⟨d, text.trans (congrArg Except.ok same), closed.mpr contained⟩

/-- A name that nothing registers is written in the objective and not declared. The conic form
refuses it. -/
theorem undeclared_name_written :
    let m : Model Float := .build .minimize .standard [.increaseObjective (.var "ghost")]
    Lp.write m = .ok "Minimize\n obj: +1 ghost\nSubject To\nBounds\nEnd\n" ∧
      (∀ d, Document.ofModel m = .ok d → "ghost" ∈ d.occurring ∧ ¬Declared d.lines "ghost") ∧
      Conic.Form.ofModel m = .error (.undefinedVariable "ghost") := by
  intro m
  have reachable : m.Reachable := Model.reachable_build _ _ _
  refine ⟨by decide +kernel, fun d made => ?_, by decide +kernel⟩
  have described := describes_of_ofModel made
  have mentioned : m.Mentions "ghost" := .inl (by decide +kernel)
  have absent : m.vars.contains "ghost" = false := by decide +kernel
  refine ⟨mem_occurring_of_mentions described mentioned, ?_⟩
  rw [declared_iff described reachable.consistent, absent]
  exact Bool.false_ne_true

end Texts

end MipModel
