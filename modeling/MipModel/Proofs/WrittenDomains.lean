import MipModel.Proofs.Domains
import MipModel.Proofs.Reconstruction

/-!
# Domains in written models

The bounds of a variable and the lists of the general and of the binary variables say which values
the text of a model allows for the variable (`Allows`). They are found in the text by its titles
(`contents`). What a variable admits is always allowed. The converse fails for a binary variable
whose bounds exclude zero or one, since the bounds of binary variables are not written, and for no
other variable (`written_domains`).
-/

namespace MipModel.Lp

open Binary64

section Contents

variable {title a : String} {front body rest names : List String}

/-- What is indented below a title. -/
def contents (title : String) (lines : List String) : List String :=
  ((lines.dropWhile fun line => decide (line ≠ title)).drop 1).takeWhile indented

theorem others {lines : List String} (absent : title ∉ lines) :
    ∀ line ∈ lines, decide (line ≠ title) = true := by
  intro line member
  refine decide_eq_true ?_
  rintro rfl
  exact absent member

theorem contents_of_notMem {lines : List String} (absent : title ∉ lines) :
    contents title lines = [] := by
  have all : lines.dropWhile (fun line => decide (line ≠ title)) = [] :=
    List.dropWhile_eq_nil_iff.mpr (others absent)
  rw [contents, all]
  rfl

/-- The contents of a section end where another title stands. -/
theorem contents_append (absent : title ∉ front) (inside : ∀ line ∈ body, indented line = true)
    (stop : indented a = false) :
    contents title (front ++ title :: (body ++ a :: rest)) = body := by
  have skipped : (front ++ title :: (body ++ a :: rest)).dropWhile
      (fun line => decide (line ≠ title)) = title :: (body ++ a :: rest) := by
    rw [List.dropWhile_append_of_pos (others absent)]
    simp
  rw [contents, skipped, List.drop_one, List.tail_cons, List.takeWhile_append_of_pos inside,
    List.takeWhile_cons_of_neg (by simp [stop]), List.append_nil]

theorem indented_of_mem_titled {line : String} (member : line ∈ names.map fun name => " " ++ name) :
    indented line = true := by
  obtain ⟨name, -, rfl⟩ := List.mem_map.mp member
  exact indented_blank name

/-- Among the lines of a list of names its title is the only heading. -/
theorem notMem_titledList (plain : indented title = false) (different : title ≠ a) :
    title ∉ titledList a names := by
  unfold titledList
  split
  · exact List.not_mem_nil
  · rw [List.mem_cons, not_or]
    refine ⟨different, fun member => ?_⟩
    rw [indented_of_mem_titled member] at plain
    cases plain

/-- A section that lists names holds the names, also if it is left out. -/
theorem contents_titledList (absent : title ∉ front) (absent' : title ∉ a :: rest)
    (stop : indented a = false) :
    contents title (front ++ (titledList title names ++ a :: rest)) =
      names.map fun name => " " ++ name := by
  unfold titledList
  split
  next none =>
    rw [List.isEmpty_iff.mp none, List.nil_append]
    exact contents_of_notMem fun member => (List.mem_append.mp member).elim absent absent'
  next => exact contents_append absent (fun line => indented_of_mem_titled) stop

end Contents

namespace Document

variable {d : Document Float}

def opening (d : Document Float) : List String :=
  directionText d.direction :: (" obj: " ++ objectiveText d.objective) ::
    ((d.constant.map constantText).toList ++ "Subject To" :: d.rows.map Row.text)

theorem lines_eq_opening (d : Document Float) :
    d.lines = d.opening ++ "Bounds" :: (d.bounds.map Bound.text ++ d.ending) := by
  simp [lines_eq, opening]

/-- Before the bounds, what is neither indented nor a comment is one of three headings. -/
theorem notMem_opening {title : String} (plain : indented title = false)
    (comment : title.toList.head? ≠ some '\\')
    (others : title ∉ ["Minimize", "Maximize", "Subject To"]) : title ∉ d.opening := by
  have inside {line : String} (h : indented line = true) : title ≠ line := by
    rintro rfl
    rw [h] at plain
    cases plain
  have objective : " obj: " ++ objectiveText d.objective =
      " " ++ ("obj: " ++ objectiveText d.objective) := String.toList_inj.mp (by simp)
  simp only [List.mem_cons, List.not_mem_nil, or_false, not_or] at others
  obtain ⟨minimize, maximize, rows⟩ := others
  simp only [opening, List.mem_cons, List.mem_append, not_or]
  refine ⟨?_, inside (by simp [objective]), ?_, rows, ?_⟩
  · cases d.direction with
    | minimize => exact minimize
    | maximize => exact maximize
  · intro noted
    obtain ⟨c, -, rfl⟩ : ∃ c ∈ d.constant, constantText c = title := by simpa using noted
    have backslash : "\\ objective constant ".toList.head? = some '\\' := by decide +kernel
    rw [toList_constantText, List.head?_append, backslash] at comment
    exact comment rfl
  · intro row
    obtain ⟨r, -, rfl⟩ := List.mem_map.mp row
    exact inside (indented_row r) rfl

theorem contents_bounds (d : Document Float) :
    contents "Bounds" d.lines = d.bounds.map Bound.text := by
  obtain ⟨a, rest, ending, stop⟩ := d.exists_ending
  rw [lines_eq_opening, ending]
  refine contents_append (notMem_opening ?_ ?_ ?_)
    (List.forall_mem_map.mpr fun b _ => indented_bound b) stop <;> decide +kernel

/-- Before the lists of names, only one more heading stands. -/
theorem notMem_before_names {title : String} (plain : indented title = false)
    (comment : title.toList.head? ≠ some '\\')
    (others : title ∉ ["Minimize", "Maximize", "Subject To", "Bounds"]) :
    title ∉ d.opening ++ "Bounds" :: d.bounds.map Bound.text := by
  rw [List.mem_append, List.mem_cons, not_or, not_or]
  refine ⟨notMem_opening plain comment fun other => others (by grind), ?_, ?_⟩
  · rintro rfl
    exact others (by simp)
  · intro bound
    obtain ⟨b, -, rfl⟩ := List.mem_map.mp bound
    rw [indented_bound] at plain
    cases plain

theorem contents_general (d : Document Float) :
    contents "General" d.lines = d.general.map fun name => " " ++ name := by
  obtain ⟨a, rest, second, stop, -⟩ := exists_heading d.binary
  have absent : "General" ∉ a :: rest := by
    rw [← second, List.mem_append, not_or]
    exact ⟨notMem_titledList (by decide +kernel) (by decide), by decide⟩
  have split : d.lines = (d.opening ++ "Bounds" :: d.bounds.map Bound.text) ++
      (titledList "General" d.general ++ a :: rest) := by
    rw [lines_eq_opening, ending, second]
    simp
  rw [split]
  refine contents_titledList (notMem_before_names ?_ ?_ ?_) absent stop <;> decide +kernel

theorem contents_binary (d : Document Float) :
    contents "Binary" d.lines = d.binary.map fun name => " " ++ name := by
  have split : d.lines = (d.opening ++ "Bounds" :: d.bounds.map Bound.text ++
      titledList "General" d.general) ++ (titledList "Binary" d.binary ++ ["End"]) := by
    rw [lines_eq_opening, ending]
    simp
  rw [split]
  refine contents_titledList ?_ (by decide) (by decide +kernel)
  rw [List.mem_append, not_or]
  refine ⟨notMem_before_names ?_ ?_ ?_, notMem_titledList ?_ ?_⟩ <;> decide +kernel

end Document

namespace Bound

variable {b b' : Bound Float} {x : Float}

/-- Bounds exclude what is below the lower and what is above the upper one. -/
def Excludes (b : Bound Float) (x : Float) : Prop :=
  (∃ lo ∈ b.lower, x < lo) ∨ ∃ hi ∈ b.upper, hi < x

/-- Infinite bounds exclude nothing, so missing ones can be taken for infinite ones. -/
theorem excludes_iff :
    b.Excludes x ↔ x < b.lower.getD (-infinity) ∨ b.upper.getD infinity < x := by
  have below : ¬x < -infinity := by
    intro less
    have less := (lt_iff_quantity (number_of_lt less).1 rfl).mp less
    exact not_lt_bot less
  have above : ¬infinity < x := by
    intro less
    have less := (lt_iff_quantity rfl (number_of_lt less).2).mp less
    exact not_top_lt less
  rw [Excludes]
  cases b.lower <;> cases b.upper <;> simp [below, above]

theorem not_excludes_iff :
    ¬b.Excludes x ↔ (∀ lo ∈ b.lower, ¬x < lo) ∧ ∀ hi ∈ b.upper, ¬hi < x := by
  rw [Excludes, not_or]
  simp only [not_exists, not_and]

/-- The texts of bounds, with the words that end them. -/
theorem text_cases (b : Bound Float) :
    (b.lower = none ∧ b.upper = none ∧ b.text = " " ++ b.name ++ " " ++ "free") ∨
    (∃ lo, b.lower = some lo ∧ b.upper = none ∧
      b.text = " " ++ b.name ++ " " ++ ">=" ++ " " ++ Scalar.text lo) ∨
    ∃ hi, b.upper = some hi ∧
      b.text = " " ++ (Scalar.text (b.lower.getD (-infinity)) ++ " " ++ ("<= " ++ b.name)) ++
        " " ++ "<=" ++ " " ++ Scalar.text hi := by
  have infinite : Scalar.text (-infinity) = "-inf" := by decide +kernel
  unfold text
  cases lower : b.lower with
  | none =>
      cases upper : b.upper with
      | none => exact .inl ⟨rfl, rfl, String.toList_inj.mp (by simp)⟩
      | some hi =>
          refine .inr (.inr ⟨hi, rfl, ?_⟩)
          rw [Option.getD_none, infinite]
          exact String.toList_inj.mp (by simp)
  | some lo =>
      cases upper : b.upper with
      | none => exact .inr (.inl ⟨lo, rfl, rfl, String.toList_inj.mp (by simp)⟩)
      | some hi => exact .inr (.inr ⟨hi, rfl, String.toList_inj.mp (by simp)⟩)

/-- The text of bounds tells the variable, whatever its name is made of, and the bounds as far as
their own texts do. -/
theorem eq_of_text (same : b.text = b'.text) : b.name = b'.name ∧
    Scalar.text (b.lower.getD (-infinity)) = Scalar.text (b'.lower.getD (-infinity)) ∧
    Scalar.text (b.upper.getD infinity) = Scalar.text (b'.upper.getD infinity) := by
  have free : Solid "free" := by simp [Solid]
  have least : Solid ">=" := by simp [Solid]
  have most : Solid "<=" := by simp [Solid]
  obtain ⟨lower, upper, text⟩ | ⟨lo, lower, upper, text⟩ | ⟨hi, upper, text⟩ := b.text_cases <;>
    obtain ⟨lower', upper', text'⟩ | ⟨lo', lower', upper', text'⟩ | ⟨hi', upper', text'⟩ :=
      b'.text_cases <;>
    rw [text, text'] at same
  · rw [lower, upper, lower', upper']
    exact ⟨by simpa using (last_word_injective free free same).1, rfl, rfl⟩
  · exact absurd (last_word_injective free (solid_text lo') same).2.symm (text_ne_free lo')
  · exact absurd (last_word_injective free (solid_text hi') same).2.symm (text_ne_free hi')
  · exact absurd (last_word_injective (solid_text lo) free same).2 (text_ne_free lo)
  · obtain ⟨starts, texts⟩ := last_word_injective (solid_text lo) (solid_text lo') same
    rw [lower, upper, lower', upper']
    exact ⟨by simpa using (last_word_injective least least starts).1, texts, rfl⟩
  · obtain ⟨starts, -⟩ := last_word_injective (solid_text lo) (solid_text hi') same
    exact absurd (last_word_injective least most starts).2 (by decide)
  · exact absurd (last_word_injective (solid_text hi) free same).2 (text_ne_free hi)
  · obtain ⟨starts, -⟩ := last_word_injective (solid_text hi) (solid_text lo') same
    exact absurd (last_word_injective most least starts).2 (by decide)
  · obtain ⟨starts, texts⟩ := last_word_injective (solid_text hi) (solid_text hi') same
    have starts := (last_word_injective most most starts).1
    obtain ⟨lowers, names⟩ := first_word_injective (solid_text _) (solid_text _)
      (by simpa only [String.append_right_inj] using starts)
    rw [upper, upper']
    exact ⟨by simpa using names, lowers, texts⟩

theorem Excludes.of_text (h : b.Excludes x) (same : b.text = b'.text) : b'.Excludes x := by
  obtain ⟨-, lower, upper⟩ := eq_of_text same
  rw [excludes_iff] at h ⊢
  -- Only numbers exclude something, and their texts tell them.
  have told {y y' : Float} (same : Scalar.text y = Scalar.text y') (number : y.isNaN = false) :
      y = y' := by
    refine text_injective number ?_ same
    by_contra undefined
    rw [Bool.not_eq_false] at undefined
    rw [isNaN_of_text same.symm undefined] at number
    cases number
  refine h.imp (fun less => ?_) (fun less => ?_)
  · rwa [← told lower (number_of_lt less).2]
  · rwa [← told upper (number_of_lt less).1]

end Bound

/-- What the sections of a text allow for a variable: its bounds do not exclude the value, the value
is an integer if the variable is listed as a general one, and it is zero or one if the variable is
listed as a binary one. Some section must name the variable. -/
structure Allows (lines : List String) (name : String) (x : Float) : Prop where
  named : (∃ b : Bound Float, b.name = name ∧ b.text ∈ contents "Bounds" lines) ∨
    " " ++ name ∈ contents "Binary" lines
  bounds : ∀ b : Bound Float, b.name = name → b.text ∈ contents "Bounds" lines → ¬b.Excludes x
  general : " " ++ name ∈ contents "General" lines → (Scalar.integer? x).isSome = true
  binary : " " ++ name ∈ contents "Binary" lines → (x == 0) = true ∨ (x == 1) = true

section Written

variable [Naming Float] {m : Model Float} {d : Document Float} {v : Variable Float} {x : Float}

omit [Naming Float] in
theorem mem_titled_iff {name : String} {names : List String} :
    " " ++ name ∈ names.map (fun name => " " ++ name) ↔ name ∈ names := by
  refine List.mem_map_of_injective fun s t same => ?_
  simpa using same

theorem mem_general_iff (described : Describes m d) (consistent : m.Consistent)
    (distinct : m.Distinct) (registered : v ∈ m.vars.values) :
    " " ++ v.name ∈ contents "General" d.lines ↔ v.kind = .integer := by
  rw [Document.contents_general, mem_titled_iff, described.general,
    mem_namesOf_iff consistent distinct registered]

theorem mem_binary_iff (described : Describes m d) (consistent : m.Consistent)
    (distinct : m.Distinct) (registered : v ∈ m.vars.values) :
    " " ++ v.name ∈ contents "Binary" d.lines ↔ v.kind = .binary := by
  rw [Document.contents_binary, mem_titled_iff, described.binary,
    mem_namesOf_iff consistent distinct registered]

def Bound.ofVariable (v : Variable Float) : Bound Float := ⟨v.name, v.lower, v.upper⟩

/-- Unless it is binary, a variable is named by its own bounds, and no other ones name it. -/
theorem mem_bounds_iff (described : Describes m d) (consistent : m.Consistent)
    (distinct : m.Distinct) (registered : v ∈ m.vars.values) {b : Bound Float}
    (named : b.name = v.name) : b.text ∈ contents "Bounds" d.lines ↔
      v.kind ≠ .binary ∧ (Bound.ofVariable v).text = b.text := by
  rw [Document.contents_bounds, described.bounds]
  constructor
  · intro listed
    obtain ⟨_, written, same⟩ := List.mem_map.mp listed
    obtain ⟨w, kept, rfl⟩ := List.mem_map.mp written
    obtain ⟨registered', discrete⟩ := List.mem_filter.mp kept
    have names : w.name = v.name := (Bound.eq_of_text same).1.trans named
    obtain rfl := eq_of_name_eq consistent distinct registered' registered names
    exact ⟨of_decide_eq_true discrete, same⟩
  · rintro ⟨discrete, same⟩
    rw [← same]
    exact List.mem_map_of_mem (List.mem_map.mpr
      ⟨v, List.mem_filter.mpr ⟨registered, decide_eq_true discrete⟩, rfl⟩)

/-- What is allowed for a variable, put in terms of the variable. -/
theorem allows_iff (described : Describes m d) (consistent : m.Consistent)
    (distinct : m.Distinct) (registered : v ∈ m.vars.values) :
    Allows d.lines v.name x ↔ (v.kind ≠ .binary → ¬(Bound.ofVariable v).Excludes x) ∧
      (v.kind = .integer → (Scalar.integer? x).isSome = true) ∧
      (v.kind = .binary → Variable.IsTruth x) := by
  have bounds {b : Bound Float} (named : b.name = v.name) :=
    mem_bounds_iff described consistent distinct registered named
  have general := mem_general_iff described consistent distinct registered
  have binary := mem_binary_iff described consistent distinct registered
  constructor
  · intro allowed
    refine ⟨fun other => ?_, fun integer => ?_, fun truth => ?_⟩
    · exact allowed.bounds (.ofVariable v) rfl ((bounds rfl).mpr ⟨other, rfl⟩)
    · exact allowed.general (general.mpr integer)
    · exact allowed.binary (binary.mpr truth)
  · rintro ⟨contained, integer, truth⟩
    refine ⟨?_, fun b named listed excluded => ?_, fun listed => integer (general.mp listed),
      fun listed => truth (binary.mp listed)⟩
    · by_cases kind : v.kind = .binary
      · exact .inr (binary.mpr kind)
      · exact .inl ⟨.ofVariable v, rfl, (bounds rfl).mpr ⟨kind, rfl⟩⟩
    · obtain ⟨other, same⟩ := (bounds named).mp listed
      exact contained other (excluded.of_text same.symm)

omit [Naming Float] in
/-- The names in a body occur in the polynomial that it is made from, or fill in for it. -/
theorem mem_names_of_ofPolynomial {p : Polynomial Float} {filler : Option String}
    {body : Body Float} (made : Body.ofPolynomial p filler = .ok body) {name : String}
    (member : name ∈ body.names) : name ∈ p.occurrences ∨ filler = some name := by
  have occurs {t : Monomial × Float} (stored : t ∈ p.toList) (inside : name ∈ t.1.names) :
      name ∈ p.occurrences :=
    List.mem_flatMap.mpr ⟨t.1, List.mem_map_of_mem stored, inside⟩
  obtain ⟨rfl, -⟩ | ⟨padding, given, rfl, -, -⟩ := exists_body made
  · obtain linear | quadratic := List.mem_append.mp member
    · obtain ⟨t, listed, rfl⟩ := List.mem_map.mp linear
      exact .inl (occurs (Polynomial.mem_linearTerms_iff.mp listed) List.mem_cons_self)
    · obtain ⟨t, listed, inside⟩ := List.mem_flatMap.mp quadratic
      exact .inl (occurs (Polynomial.mem_quadraticTerms_iff.mp listed) inside)
  · obtain rfl := List.mem_singleton.mp member
    exact .inr given

/-- All names in the document of a model occur in the model or identify its rows. -/
theorem mem_names_of_describes (described : Describes m d) (consistent : m.Consistent) :
    ∀ name ∈ d.names, name ∈ m.occurringNames ∨ name ∈ m.constraints.names := by
  have registered {v : Variable Float} (member : v ∈ m.vars.values) :
      v.name ∈ m.occurringNames :=
    List.mem_append_left _ (List.mem_append_left _
      (consistent.names_eq ▸ List.mem_map_of_mem member))
  have padded {name : String} (given : fillerOf m = some name) : name ∈ m.occurringNames := by
    obtain ⟨v, first, rfl⟩ := Option.map_eq_some_iff.mp given
    exact registered (List.mem_of_mem_head? first)
  have listed {kind : Variable.Kind} : ∀ name ∈ namesOf kind m.vars.values,
      name ∈ m.occurringNames :=
    List.forall_mem_map.mpr fun v kept => registered (List.mem_of_mem_filter kept)
  simp only [Document.names, List.forall_mem_append, List.forall_mem_flatMap,
    List.forall_mem_cons, List.forall_mem_map]
  rw [described.bounds, described.general, described.binary]
  refine ⟨⟨fun name member => .inl ?_, fun r member => ?_⟩, ⟨fun b member => .inl ?_,
    fun name member => .inl (listed name member)⟩, fun name member => .inl (listed name member)⟩
  · obtain occurs | given := mem_names_of_ofPolynomial described.objective member
    · exact List.mem_append_left _ (List.mem_append_right _ occurs)
    · exact padded given
  · obtain ⟨e, stored, body, id, -, -⟩ := described.rows.exists_left member
    refine ⟨.inr (id ▸ List.mem_map_of_mem stored), fun name inside => .inl ?_⟩
    obtain occurs | given := mem_names_of_ofPolynomial body inside
    · exact List.mem_append_right _ (List.mem_flatMap.mpr ⟨e.2, List.mem_map_of_mem stored, occurs⟩)
    · exact padded given
  · obtain ⟨v, kept, rfl⟩ := List.mem_map.mp member
    exact registered (List.mem_of_mem_filter kept)

/-- The text of a model allows for every variable what the variable admits, and nothing else unless
the variable is binary and one of its bounds excludes zero or one. The bounds of binary variables
are not written, so the text then allows zero and one, and the variable does not admit both. -/
theorem written_domains {text : String} (reachable : m.Reachable) (written : write m = .ok text) :
    ∃ lines, text = String.join (lines.map fun line => line ++ "\n") ∧
      ((∀ name ∈ m.occurringNames, '\n' ∉ name.toList) → ∀ line ∈ lines, '\n' ∉ line.toList) ∧
      ∀ v ∈ m.vars.values, (∀ x, v.admits x 0 = true → Allows lines v.name x) ∧
        ((∀ x, Allows lines v.name x → v.admits x 0 = true) ↔ ¬v.Tightened) := by
  obtain ⟨d, made, spelled⟩ := Build.bind_eq_ok_iff.mp written
  obtain rfl : d.text = text := Except.ok.inj spelled
  have described := describes_of_ofModel made
  have consistent := reachable.consistent
  refine ⟨d.lines, rfl, fun unbroken => Document.unbroken_lines fun name member => ?_,
    fun v registered => ?_⟩
  · obtain occurring | id := mem_names_of_describes described consistent name member
    · exact unbroken name occurring
    · obtain ⟨e, stored, rfl⟩ := List.mem_map.mp id
      exact fun broken => (solid_of_numbered consistent stored _ broken).2 rfl
  · have allows (x : Float) :=
      allows_iff (x := x) described consistent reachable.distinct registered
    simp only [allows]
    by_cases kind : v.kind = .binary
    · obtain ⟨truth, loose⟩ := (reachable.defined v registered).admits_binary kind
      simpa [kind] using ⟨truth, loose⟩
    · have loose : ¬v.Tightened := fun tightened => kind tightened.1
      have same (x : Float) : v.admits x 0 = true ↔ ¬(Bound.ofVariable v).Excludes x ∧
          (v.kind = .integer → (Scalar.integer? x).isSome = true) := by
        have discrete : v.kind ≠ .continuous ↔ v.kind = .integer := by
          cases other : v.kind with
          | binary => exact absurd other kind
          | continuous | integer => simp
        rw [Variable.admits_iff, discrete, ← and_assoc, Bound.not_excludes_iff]
        rfl
      simp [kind, loose, same]

end Written

/-- An integer variable and a binary one with a bound that excludes nothing have the domains that
the text allows; a binary variable that must be one has not. -/
theorem three_domains_written :
    let x : Variable Float := ⟨"x", .integer, some (-2), some 3.5⟩
    let b : Variable Float := ⟨"b", .binary, some 0, some 1⟩
    let c : Variable Float := ⟨"c", .binary, some 1, some 1⟩
    let m : Model Float := .build .minimize .standard [
      .registerAs "x" (.between (.ofKind .free .integer) (-2) 3.5),
      .registerAs "b" (.atMost .binary 7), .registerAs "c" (.atLeast .binary 1)]
    ∃ text lines, write m = .ok text ∧ text = String.join (lines.map fun line => line ++ "\n") ∧
      (∀ line ∈ lines, '\n' ∉ line.toList) ∧
      (∀ a, Allows lines "x" a ↔ x.admits a 0 = true) ∧
      (∀ a, Allows lines "b" a ↔ b.admits a 0 = true) ∧
      ¬∀ a, Allows lines "c" a → c.admits a 0 = true := by
  intro x b c m
  have registered : m.vars.values = [x, b, c] := by decide +kernel
  have names : ∀ name ∈ m.occurringNames, '\n' ∉ name.toList := by decide +kernel
  have written : write m = .ok ("Minimize\n obj: 0 x\nSubject To\nBounds\n -2 <= x <= 3.5\n" ++
      "General\n x\nBinary\n b\n c\nEnd\n") := by decide +kernel
  obtain ⟨lines, split, unbroken, domains⟩ :=
    written_domains (Model.reachable_build _ _ _) written
  rw [registered] at domains
  obtain ⟨first, exact⟩ := domains x (by simp)
  obtain ⟨second, exact'⟩ := domains b (by simp)
  obtain ⟨-, lost⟩ := domains c (by simp)
  have loose : ¬x.Tightened ∧ ¬b.Tightened := by
    simp only [Variable.Tightened]
    decide +kernel
  have tight : c.Tightened := by
    simp only [Variable.Tightened]
    decide +kernel
  exact ⟨_, lines, written, split, unbroken names, fun a => ⟨exact.mpr loose.1 a, first a⟩,
    fun a => ⟨exact'.mpr loose.2 a, second a⟩, fun all => lost.mp all tight⟩

/-- A binary variable that must be one: its text lists it as binary and bounds nothing, so it allows
zero, which the variable does not admit. -/
theorem required_choice_written :
    let b : Variable Float := ⟨"v00000_b", .binary, some 1, some 1⟩
    let m : Model Float := .build .minimize .standard [.createVariable "b" (.atLeast .binary 1)]
    let lines := ["Minimize", " obj: 0 v00000_b", "Subject To", "Bounds", "Binary", " v00000_b",
      "End"]
    m.Reachable ∧ write m = .ok (String.join (lines.map fun line => line ++ "\n")) ∧
      m.vars.values = [b] ∧ Allows lines b.name 0 ∧ b.admits 0 0 = false := by
  intro b m lines
  have bounds : contents "Bounds" lines = [] := by decide +kernel
  have general : contents "General" lines = [] := by decide +kernel
  have binary : contents "Binary" lines = [" v00000_b"] := by decide +kernel
  refine ⟨Model.reachable_build _ _ _, by decide +kernel, by decide +kernel, ?_, by decide +kernel⟩
  exact {
    named := .inr (by rw [binary]; decide)
    bounds := fun _ _ listed => absurd (bounds ▸ listed) List.not_mem_nil
    general := fun listed => absurd (general ▸ listed) List.not_mem_nil
    binary := fun _ => .inl rfl }

end MipModel.Lp
