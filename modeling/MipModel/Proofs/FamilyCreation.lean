import MipModel.Linearization.Naming
import MipModel.Proofs.Atomicity
import MipModel.Proofs.NestedLoops

/-!
# What failed registrations leave behind

A variable is registered or it is not, and a family is checked before it is stored, so these steps
leave a model as it was when they fail. The creation of a family does not run atomically: its
members are registered one by one, and each of them can meet a name that a caller has taken. The
members before it then stay registered, and the family is not stored (`registration_failures`).

Members are created at the tuples that generators produce, each once. All of these tuples have the
length that there are generators (`length_of_familyIndices`), so the tuples of a family under
construction do not differ in length, and a tuple has a member exactly if it has been met before.
-/

namespace MipModel

open Model Build

variable {α : Type}

section Tuples

variable [Scalar α]

/-- The scopes of the innermost loop body have values for the symbols of all loops. -/
theorem Generator.bound_of_expand {generators : List (Generator α)} {scope : Scope α}
    {scopes : List (Scope α)} (expanded : expand generators scope = .ok scopes) :
    ∀ s ∈ scopes, ∀ g ∈ generators, (s.lookup? g.symbol).isSome = true := by
  intro s reached g loop
  obtain ⟨-, -, rfl⟩ := (expand_eq_ok_iff (List.ne_nil_of_mem loop)).mp expanded
  obtain ⟨values, takes, rfl⟩ := mem_nestedLoops_iff.mp reached
  apply Scope.isSome_lookup?_bindAll
  · rw [takes.length_eq, List.length_map]
  · exact List.mem_map_of_mem loop

omit [Scalar α] in
/-- A tuple holds the values of the symbols, one for each generator. -/
theorem Generator.map_some_indexIn {generators : List (Generator α)} {s : Scope α}
    (bound : ∀ g ∈ generators, (s.lookup? g.symbol).isSome = true) :
    (indexIn generators s).map some = generators.map fun g => s.lookup? g.symbol := by
  unfold indexIn
  induction generators with
  | nil => rfl
  | cons g generators ih =>
      obtain ⟨first, rest⟩ := List.forall_mem_cons.mp bound
      obtain ⟨value, found⟩ := Option.isSome_iff_exists.mp first
      rw [List.filterMap_cons, found, List.map_cons, List.map_cons, ih rest, found]

/-- The tuples of a family come from the scopes of nested loops, or from the data alone. -/
theorem exists_scopes_of_familyIndices {generators : List (Generator α)} {data : Data α}
    {indices : List Index} (h : familyIndices generators data = .ok indices) :
    ∃ scopes, (generators = [] ∧ scopes = [.ofData data] ∨
        Generator.expand generators (.ofData data) = .ok scopes) ∧
      List.Forall₂ (fun s index => index.map some = generators.map fun g => s.lookup? g.symbol)
        scopes indices := by
  unfold familyIndices at h
  split at h
  next none =>
    cases h
    obtain rfl := List.isEmpty_iff.mp none
    exact ⟨_, .inl ⟨rfl, rfl⟩, .cons rfl .nil⟩
  next =>
    obtain ⟨scopes, expanded, done⟩ := bind_eq_ok_iff.mp h
    cases done
    refine ⟨scopes, .inr expanded, List.forall₂_map_right_iff.mpr ?_⟩
    exact List.forall₂_same.mpr fun s reached =>
      Generator.map_some_indexIn (Generator.bound_of_expand expanded s reached)

/-- The tuples of a family have as many components as there are generators. -/
theorem length_of_familyIndices {generators : List (Generator α)} {data : Data α}
    {indices : List Index} (h : familyIndices generators data = .ok indices) :
    ∀ index ∈ indices, index.length = generators.length := by
  obtain ⟨scopes, -, looked⟩ := exists_scopes_of_familyIndices h
  intro index member
  obtain ⟨s, -, symbols⟩ := looked.exists_left member
  simpa using congrArg List.length symbols

end Tuples

section Lookup

variable {f : Family α} {index : Index}

/-- Where all tuples have one length, a tuple of that length has a member or is not among them. -/
theorem Family.lookup_eq_find (uniform : ∀ k ∈ f.members.keys, k.length = index.length) :
    f.lookup index = lookup.find f index := by
  unfold lookup
  cases first : f.arity? with
  | none => rfl
  | some n =>
      obtain ⟨k, head, rfl⟩ := Option.map_eq_some_iff.mp first
      simp [uniform k (List.mem_of_mem_head? head)]

/-- A member at a tuple of the same length leaves all tuples of one length. -/
theorem Family.uniform_insert {n : Nat} (uniform : ∀ k ∈ f.members.keys, k.length = n)
    (length : index.length = n) (p : Polynomial α) :
    ∀ k ∈ (f.insert index p).members.keys, k.length = n :=
  fun k member => (SortedTable.mem_keys_insertEntry member).elim (· ▸ length) (uniform k)

@[simp] theorem Family.contains_insert_self (f : Family α) (index : Index) (p : Polynomial α) :
    (f.insert index p).members.contains index = true := by
  simp [insert, SortedTable.contains]

@[simp] theorem Family.contains_insert_of_ne (f : Family α) {k : Index} (different : k ≠ index)
    (p : Polynomial α) : (f.insert index p).members.contains k = f.members.contains k := by
  simp [insert, SortedTable.contains, different]

/-- The tuples of a list at which a family has no members, in order and without repetition. -/
structure Family.Lacking (f : Family α) (indices lacking : List Index) : Prop where
  sublist : lacking.Sublist indices
  distinct : lacking.Nodup
  covers : ∀ k ∈ indices, k ∈ lacking ∨ f.members.contains k = true
  absent : ∀ k ∈ lacking, f.members.contains k = false

namespace Family.Lacking

variable {indices lacking : List Index}

theorem nil : f.Lacking [] [] :=
  ⟨.slnil, .nil, fun _ none => absurd none List.not_mem_nil,
    fun _ none => absurd none List.not_mem_nil⟩

theorem skip (h : f.Lacking indices lacking) (present : f.members.contains index = true) :
    f.Lacking (index :: indices) lacking :=
  ⟨h.sublist.cons index, h.distinct, List.forall_mem_cons.mpr ⟨.inr present, h.covers⟩, h.absent⟩

theorem take {p : Polynomial α} (h : (f.insert index p).Lacking indices lacking)
    (missing : f.members.contains index = false) :
    f.Lacking (index :: indices) (index :: lacking) where
  sublist := h.sublist.cons_cons index
  distinct := by
    refine List.nodup_cons.mpr ⟨fun later => ?_, h.distinct⟩
    have absent := h.absent index later
    simp at absent
  covers := by
    refine List.forall_mem_cons.mpr ⟨.inl List.mem_cons_self, fun k member => ?_⟩
    by_cases same : k = index
    · exact .inl (same ▸ List.mem_cons_self)
    · refine (h.covers k member).imp (List.mem_cons_of_mem index) fun stored => ?_
      simpa [same] using stored
  absent := by
    refine List.forall_mem_cons.mpr ⟨missing, fun k later => ?_⟩
    have absent := h.absent k later
    by_cases same : k = index
    · rwa [same]
    · simpa [same] using absent

end Family.Lacking

end Lookup

section Members

variable [Scalar α] {m m' : Model α} {options : Variable.Options α} {e : Error α}

/-- Whether options can be met does not depend on the name. -/
theorem Variable.Options.define_of_define {name : String} {v : Variable α}
    (h : options.define name = .ok v) (other : String) :
    options.define other = .ok ⟨other, options.kind, options.lowerBound, options.upperBound⟩ := by
  unfold define at h ⊢
  split at h
  next lower upper hasLower hasUpper =>
    split at h
    next => cases h
    next uncrossed => rw [hasLower, hasUpper, if_neg uncrossed]
  next => rfl

namespace Model

/-- The name of the member of a family at a tuple, under a number. -/
def memberName (family : String) (n : Nat) (index : Index) : String :=
  Identifier.numbered "v" n (memberLabel family index)

/-- The variables of the members at some tuples, under the numbers from a given one on. -/
def memberEntries (family : String) (options : Variable.Options α) (n : Nat)
    (indices : List Index) : List (String × Variable α) :=
  (indices.zipIdx n).map fun p =>
    let name := memberName family p.2 p.1
    (name, ⟨name, options.kind, options.lowerBound, options.upperBound⟩)

def addMembers (m : Model α) (family : String) (options : Variable.Options α)
    (indices : List Index) : Model α :=
  { m.addVars (memberEntries family options m.nextVariable indices) with
    nextVariable := m.nextVariable + indices.length }

@[simp] theorem addMembers_nil (m : Model α) (family : String) (options : Variable.Options α) :
    m.addMembers family options [] = m := by
  simp [addMembers, memberEntries]

theorem addMembers_addMembers (m : Model α) (family : String) (options : Variable.Options α)
    (first second : List Index) :
    (m.addMembers family options first).addMembers family options second =
      m.addMembers family options (first ++ second) := by
  simp [addMembers, addVars, memberEntries, List.zipIdx_append, Nat.add_assoc]

@[simp] theorem nextVariable_addMembers (m : Model α) (family : String)
    (options : Variable.Options α) (indices : List Index) :
    (m.addMembers family options indices).nextVariable = m.nextVariable + indices.length := rfl

@[simp] theorem names_addMembers (m : Model α) (family : String) (options : Variable.Options α)
    (indices : List Index) : (m.addMembers family options indices).vars.names =
      m.vars.names ++ (memberEntries family options m.nextVariable indices).map Prod.fst :=
  List.map_append

/-- A name with the next number that is taken after members have been added was taken before. -/
theorem contains_of_addMembers {family : String} {indices : List Index} {label : String}
    (taken : (m.addMembers family options indices).vars.contains
      (Identifier.numbered "v" (m.addMembers family options indices).nextVariable label) = true) :
    m.vars.contains
      (Identifier.numbered "v" (m.addMembers family options indices).nextVariable label) = true := by
  rw [Registry.contains_eq_true_iff, nextVariable_addMembers] at taken ⊢
  rw [names_addMembers, List.mem_append] at taken
  refine taken.resolve_right fun added => ?_
  obtain ⟨entry, member, same⟩ := List.mem_map.mp added
  obtain ⟨p, counted, rfl⟩ := List.mem_map.mp member
  have below := (List.mem_zipIdx counted).2.1
  have number := Identifier.number_eq_of_numbered_eq same
  omega

/-- At a tuple with a member nothing happens. At another one a member is registered, unless its name
is taken. -/
theorem runOn_addMember {name : String} {v : Variable α} (defined : options.define name = .ok v)
    {f : Family α} {index : Index} (uniform : ∀ k ∈ f.members.keys, k.length = index.length)
    (m : Model α) :
    (f.members.contains index = true ∧ (addMember options f index).runOn m = (.ok f, m)) ∨
    f.members.contains index = false ∧
      ((m.vars.contains (memberName f.name m.nextVariable index) = true ∧
        (addMember options f index).runOn m =
          (.error (.duplicateVariable (memberName f.name m.nextVariable index)), m)) ∨
      m.vars.contains (memberName f.name m.nextVariable index) = false ∧
        (addMember options f index).runOn m =
          (.ok (f.insert index (.var (memberName f.name m.nextVariable index))),
            m.addMembers f.name options [index])) := by
  have made := Variable.Options.define_of_define defined (memberName f.name m.nextVariable index)
  unfold memberName at made ⊢
  rw [addMember, Family.lookup_eq_find uniform, Family.lookup.find, SortedTable.contains]
  cases f.members.find? index with
  | some p => exact .inl ⟨rfl, rfl⟩
  | none =>
      refine .inr ⟨rfl, ?_⟩
      cases taken : m.vars.contains
          (Identifier.numbered "v" m.nextVariable (memberLabel f.name index)) with
      | true => exact .inl ⟨rfl, by simp [registerNext, runOn_bind, made, taken]⟩
      | false =>
          refine .inr ⟨rfl, ?_⟩
          simp [registerNext, runOn_bind, made, taken, addMembers, memberEntries, memberName,
            addVars, Registry.push]

/-- When the creation of members fails, it has met a tuple without a member whose name is taken. The
members at the tuples before it have been registered. -/
theorem exists_of_addMember_failed {name : String} {v : Variable α}
    (defined : options.define name = .ok v) {n : Nat} {indices : List Index} {f : Family α}
    (uniform : ∀ k ∈ f.members.keys, k.length = n) (lengths : ∀ index ∈ indices, index.length = n)
    (failed : (indices.foldlM (addMember options) f).runOn m = (.error e, m')) :
    ∃ before index after created, indices = before ++ index :: after ∧
      f.Lacking before created ∧ f.members.contains index = false ∧ index ∉ before ∧
      m' = m.addMembers f.name options created ∧
      e = .duplicateVariable (memberName f.name m'.nextVariable index) ∧
      m'.vars.contains (memberName f.name m'.nextVariable index) = true := by
  induction indices generalizing f m with
  | nil => cases failed
  | cons x indices ih =>
      obtain ⟨length, lengths⟩ := List.forall_mem_cons.mp lengths
      rw [List.foldlM_cons, runOn_bind] at failed
      obtain ⟨present, step⟩ | ⟨missing, ⟨taken, step⟩ | ⟨-, step⟩⟩ :=
        runOn_addMember defined (fun k member => (uniform k member).trans length.symm) _
      · rw [step] at failed
        obtain ⟨before, index, after, created, rfl, lacking, absent, fresh, rest⟩ :=
          ih uniform lengths failed
        refine ⟨x :: before, index, after, created, rfl, lacking.skip present, absent, ?_, rest⟩
        rintro (_ | ⟨_, earlier⟩)
        · rw [present] at absent
          cases absent
        · exact fresh earlier
      · rw [step] at failed
        cases failed
        exact ⟨[], x, indices, [], rfl, .nil, missing, List.not_mem_nil,
          (addMembers_nil _ _ _).symm, rfl, taken⟩
      · rw [step] at failed
        obtain ⟨before, index, after, created, rfl, lacking, absent, fresh, rfl, rest⟩ :=
          ih (Family.uniform_insert uniform length _) lengths failed
        have different : index ≠ x := by
          rintro rfl
          simp at absent
        rw [f.contains_insert_of_ne different] at absent
        refine ⟨x :: before, index, after, x :: created, rfl, lacking.take missing, absent, ?_,
          addMembers_addMembers _ _ _ [x] created, rest⟩
        rintro (_ | ⟨_, earlier⟩)
        · exact different rfl
        · exact fresh earlier

end Model

end Members

section Registrations

variable {m : Model α}

/-- When a sequence fails whose first part changes nothing, nothing has changed or the second part
has failed. -/
theorem Build.failed_after_unchanged {β γ : Type} {step : Build α β} {next : β → Build α γ}
    {e : Error α} {m' : Model α} (unchanged : (step.runOn m).2 = m)
    (failed : (step >>= next).runOn m = (.error e, m')) :
    m' = m ∨ ∃ b, (step.runOn m).1 = .ok b ∧ (next b).runOn m = (.error e, m') := by
  obtain first | ⟨b, middle, done, second⟩ := runOn_bind_error.mp failed
  · rw [first] at unchanged
    exact .inl unchanged
  · rw [done] at unchanged
    exact .inr ⟨b, congrArg Prod.fst done, unchanged ▸ second⟩

/-- A family name is looked up without changing the model. -/
theorem runOn_requireNewFamily (name : String) (m : Model α) :
    ((requireNewFamily name).runOn m).2 = m :=
  (keeps_requireNewFamily (R := Eq) name m).symm

variable [Scalar α]

theorem allOrNothing_registerAs (name : String) (options : Variable.Options α) :
    AllOrNothing m (registerAs name options) :=
  .of_outcome <| (runOn_registerAs name options m).imp_right fun ⟨_, _, _, done⟩ => ⟨_, _, done⟩

theorem allOrNothing_registerNext (label : String) (options : Variable.Options α) :
    AllOrNothing m (registerNext label options) :=
  .of_outcome <| (runOn_registerNext label options m).imp_right
    fun ⟨_, _, _, _, _, done⟩ => ⟨_, _, done⟩

theorem allOrNothing_createVariable (label : String) (options : Variable.Options α) :
    AllOrNothing m (createVariable label options) := by
  refine .bind (.of_unchanged (runOn_requireNewFamily label m)) fun {_ middle} checked => ?_
  obtain rfl : middle = m := by
    rw [← runOn_requireNewFamily label m, checked]
  exact AllOrNothing.bind (allOrNothing_registerNext label options)
    fun _ _ _ failed => nomatch failed

theorem allOrNothing_defineFamily (f : Family α) : AllOrNothing m (defineFamily f) := by
  refine .bind (.of_unchanged rfl) fun {current middle} got => ?_
  obtain ⟨rfl, rfl⟩ := runOn_get_ok.mp got
  refine AllOrNothing.bind (.of_unchanged ?_) fun _ _ _ failed => nomatch failed
  rw [runOn_forM_liftM]

/-- The creation of a family that fails leaves the model as it was, or leaves the members at the
tuples before one whose name had been taken. -/
theorem exists_of_createFamily_failed {name : String} {generators : List (Generator α)}
    {options : Variable.Options α} {data : Data α} {e : Error α} {m' : Model α}
    (failed : (createFamily name generators options data).runOn m = (.error e, m')) :
    m' = m ∨ ∃ before index after created,
      familyIndices generators data = .ok (before ++ index :: after) ∧ index ∉ before ∧
      created.Sublist before ∧ created.Nodup ∧ before ⊆ created ∧ created ≠ [] ∧
      m' = m.addMembers name options created ∧
      e = .duplicateVariable (memberName name (m.nextVariable + created.length) index) ∧
      m.vars.contains (memberName name (m.nextVariable + created.length) index) = true := by
  obtain same | ⟨_, -, defining⟩ :=
    failed_after_unchanged (runOn_requireNewFamily name m) failed
  · exact .inl same
  obtain same | ⟨v, defined, expanding⟩ := failed_after_unchanged rfl defining
  · exact .inl same
  obtain same | ⟨indices, expanded, creating⟩ := failed_after_unchanged rfl expanding
  · exact .inl same
  obtain stopped | ⟨f, _, -, stored⟩ := runOn_bind_error.mp creating
  · obtain ⟨before, index, after, created, rfl, lacking, -, fresh, rfl, rfl, taken⟩ :=
      exists_of_addMember_failed defined (f := .empty name)
        (fun _ none => absurd none List.not_mem_nil) (length_of_familyIndices expanded) stopped
    by_cases none : created = []
    · subst none
      exact .inl (addMembers_nil _ _ _)
    · have covers : before ⊆ created := fun k member =>
        (lacking.covers k member).resolve_right Bool.false_ne_true
      exact .inr ⟨before, index, after, created, expanded, fresh, lacking.sublist,
        lacking.distinct, covers, none, rfl, rfl, contains_of_addMembers taken⟩
  · cases stored

/-- A registration that fails leaves the model as it was, unless it is the creation of a family and
stops after some members. The members at the tuples so far, each once, then stay registered; the
next name, under the number that was its turn, had been taken. -/
theorem registration_failures (m : Model α) :
    (∀ label options, AllOrNothing m (createVariable label options)) ∧
    (∀ name options, AllOrNothing m (registerAs name options)) ∧
    (∀ f, AllOrNothing m (defineFamily f)) ∧
    ∀ name generators options data e m',
      (createFamily name generators options data).runOn m = (.error e, m') → m' = m ∨
        ∃ before index after created,
          familyIndices generators data = .ok (before ++ index :: after) ∧ index ∉ before ∧
          created.Sublist before ∧ created.Nodup ∧ before ⊆ created ∧ created ≠ [] ∧
          m' = m.addMembers name options created ∧
          e = .duplicateVariable (memberName name (m.nextVariable + created.length) index) ∧
          m.vars.contains (memberName name (m.nextVariable + created.length) index) = true :=
  ⟨allOrNothing_createVariable, allOrNothing_registerAs, allOrNothing_defineFamily,
    fun _ _ _ _ _ _ => exists_of_createFamily_failed⟩

/-- The name of the third member, at the fourth tuple, has been taken. Three other registrations
that fail leave the model alone. -/
theorem failures_after_taken_name :
    let crossed : Variable.Options Float := Variable.Options.free.between 2 1
    let m : Model Float := .build .minimize .standard [.registerAs "v00002_f_2" .free]
    let creation := createFamily "f" [.of "i" (.values [3, 1, 3, 2, 4])] .free .empty
    m.Reachable ∧
      (createVariable "x" crossed).runOn m = (.error (.invalidBounds "v00000_x" 2 1), m) ∧
      (registerAs "v00002_f_2" crossed).runOn m = (.error (.duplicateVariable "v00002_f_2"), m) ∧
      (defineFamily (.ofList "g" [([], .var "y")])).runOn m = (.error (.undefinedVariable "y"), m) ∧
      ∃ m' created, creation.runOn m = (.error (.duplicateVariable "v00002_f_2"), m') ∧
        created ≠ [] ∧ m' = m.addMembers "f" .free created ∧
        m'.vars.names = ["v00002_f_2", "v00000_f_3", "v00001_f_1"] := by
  intro crossed m creation
  obtain ⟨single, named, defined, creations⟩ := registration_failures m
  refine ⟨Model.reachable_build _ _ _, ?_, ?_, ?_, ?_⟩
  · have failed : ((createVariable "x" crossed).runOn m).1 =
        .error (.invalidBounds "v00000_x" 2 1) := by decide +kernel
    exact Prod.ext failed (single "x" crossed _ _ (Prod.ext failed rfl))
  · have failed : ((registerAs "v00002_f_2" crossed).runOn m).1 =
        .error (.duplicateVariable "v00002_f_2") := by decide +kernel
    exact Prod.ext failed (named "v00002_f_2" crossed _ _ (Prod.ext failed rfl))
  · have failed : ((defineFamily (.ofList "g" [([], .var "y")])).runOn m).1 =
        .error (.undefinedVariable "y") := by decide +kernel
    exact Prod.ext failed (defined _ _ _ (Prod.ext failed rfl))
  · have failed : (creation.runOn m).1 = .error (.duplicateVariable "v00002_f_2") := by
      decide +kernel
    obtain same | ⟨_, _, _, created, -, -, -, -, -, some, left, -⟩ :=
      creations "f" _ .free .empty _ _ (Prod.ext failed rfl)
    · exact absurd same (by decide +kernel)
    · exact ⟨_, created, Prod.ext failed rfl, some, left, by decide +kernel⟩

/-- The name of the second member has been taken. The creation of the family fails, and the first
member stays registered without a family that it belongs to. -/
theorem first_member_left :
    let m : Model Float := .build .minimize .standard [.registerAs "v00001_f_2" .free]
    let creation := createFamily "f" [.of "i" (.values [1, 2])] .free .empty
    let m' := (creation.runOn m).2
    m.Reachable ∧ creation.runOn m = (.error (.duplicateVariable "v00001_f_2"), m') ∧
      m'.families.contains "f" = false ∧ m.vars.names = ["v00001_f_2"] ∧
      m'.vars.names = ["v00001_f_2", "v00000_f_1"] ∧ m.nextVariable = 0 ∧ m'.nextVariable = 1 := by
  intro m creation m'
  have failed : (creation.runOn m).1 = .error (.duplicateVariable "v00001_f_2") := by
    decide +kernel
  exact ⟨Model.reachable_build _ _ _, Prod.ext failed rfl, by decide +kernel, by decide +kernel,
    by decide +kernel, by decide +kernel, by decide +kernel⟩

end Registrations

end MipModel
