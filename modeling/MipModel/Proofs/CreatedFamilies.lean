import MipModel.Proofs.FamilyCreation
import MipModel.Proofs.Terms

/-!
# Created families

The creation of a family that succeeds has registered one variable for every tuple that the
generators produce, in the order in which the tuples are met first and under consecutive numbers. A
tuple that is met again changes nothing. The members of the family are these variables, at these
tuples, and nothing else about the model has changed (`createFamily_creates`).
-/

namespace MipModel

open Model Build

/-- Every member of a list is kept once. -/
theorem nodup_eraseDups {β : Type} [BEq β] [LawfulBEq β] : ∀ xs : List β, xs.eraseDups.Nodup
  | [] => by rw [List.eraseDups_nil]; exact List.nodup_nil
  | x :: xs => by
    rw [List.eraseDups_cons, List.nodup_cons, List.mem_eraseDups]
    exact ⟨by simp, nodup_eraseDups _⟩
termination_by xs => xs.length
decreasing_by exact Nat.lt_succ_of_le (List.length_filter_le _ xs)

variable {α : Type}

namespace Family

variable {f : Family α} {x k : Index} {xs : List Index} {n : Nat}

/-- The tuples of a list at which a family has no member, in the order of their first occurrence. -/
def missing (f : Family α) (indices : List Index) : List Index :=
  (indices.filter fun k => !f.members.contains k).eraseDups

theorem missing_cons_of_contains (present : f.members.contains x = true) (xs : List Index) :
    f.missing (x :: xs) = f.missing xs := by
  rw [missing, List.filter_cons_of_neg (by simpa using present), missing]

theorem missing_cons_of_lacks (absent : f.members.contains x = false) (p : Polynomial α)
    (xs : List Index) : f.missing (x :: xs) = x :: (f.insert x p).missing xs := by
  rw [missing, List.filter_cons_of_pos (by simpa using absent), List.eraseDups_cons, missing,
    List.filter_filter]
  congr 2
  refine List.filter_congr fun k _ => ?_
  by_cases same : k = x
  · simp [same]
  · simp [same]

@[simp] theorem missing_empty (name : String) (indices : List Index) :
    (empty name : Family α).missing indices = indices.eraseDups :=
  congrArg List.eraseDups (List.filter_eq_self.mpr fun _ _ => rfl)

variable [Scalar α]

/-- A family with further members, variables under the numbers from a given one on. -/
def withMembers (f : Family α) (n : Nat) : List Index → Family α
  | [] => f
  | x :: rest => (f.insert x (.var (memberName f.name n x))).withMembers (n + 1) rest

theorem find?_withMembers_of_notMem (absent : k ∉ xs) :
    (f.withMembers n xs).members.find? k = f.members.find? k := by
  induction xs generalizing f n with
  | nil => rfl
  | cons x xs ih =>
      obtain ⟨different, later⟩ := List.ne_and_not_mem_of_not_mem_cons absent
      rw [withMembers, ih later]
      exact SortedTable.find?_insert_of_ne different _ _

/-- The member at a tuple is the variable under the number of the tuple. -/
theorem find?_withMembers (f : Family α) (distinct : xs.Nodup) {i : Nat}
    (member : (k, i) ∈ xs.zipIdx n) :
    (f.withMembers n xs).members.find? k = some (.var (memberName f.name i k)) := by
  induction xs generalizing f n with
  | nil => cases member
  | cons x xs ih =>
      obtain ⟨once, distinct⟩ := List.nodup_cons.mp distinct
      rw [withMembers]
      obtain first | later := List.mem_cons.mp member
      · obtain ⟨rfl, rfl⟩ := Prod.mk.inj first
        rw [find?_withMembers_of_notMem once]
        exact SortedTable.find?_insert_self ..
      · exact ih _ distinct later

theorem mem_keys_withMembers :
    k ∈ (f.withMembers n xs).members.keys ↔ k ∈ f.members.keys ∨ k ∈ xs := by
  induction xs generalizing f n with
  | nil => simp [withMembers]
  | cons x xs ih =>
      rw [withMembers, ih]
      show k ∈ (f.members.insert x _).keys ∨ k ∈ xs ↔ _
      rw [SortedTable.mem_keys_insert, List.mem_cons, or_left_comm, or_assoc]

theorem ordered_withMembers (h : f.members.Ordered) : (f.withMembers n xs).members.Ordered := by
  induction xs generalizing f n with
  | nil => exact h
  | cons x xs ih => exact ih (SortedTable.Ordered.insert h x _)

theorem name_withMembers : (f.withMembers n xs).name = f.name := by
  induction xs generalizing f n with
  | nil => rfl
  | cons x xs ih => exact ih

variable {name : String}

/-- A family that is made of members at distinct tuples has these tuples. -/
theorem keys_withMembers_perm (distinct : xs.Nodup) :
    ((empty name : Family α).withMembers n xs).members.keys.Perm xs := by
  have ordered : ((empty name : Family α).withMembers n xs).members.Ordered :=
    ordered_withMembers List.Pairwise.nil
  refine (List.perm_ext_iff_of_nodup ordered.nodup distinct).mpr fun k => ?_
  rw [mem_keys_withMembers]
  exact or_iff_right List.not_mem_nil

/-- Every member is a variable, under the number of its tuple. -/
theorem exists_of_find?_withMembers (distinct : xs.Nodup) {p : Polynomial α}
    (found : ((empty name).withMembers n xs).members.find? k = some p) :
    ∃ i, (k, i) ∈ xs.zipIdx n ∧ p = .var (memberName name i k) := by
  have stored : ((empty name : Family α).withMembers n xs).members.contains k = true :=
    Option.isSome_iff_exists.mpr ⟨p, found⟩
  have among : k ∈ (xs.zipIdx n).map Prod.fst := by
    rw [List.zipIdx_map_fst]
    exact (keys_withMembers_perm distinct).mem_iff.mp (SortedTable.contains_iff.mp stored)
  obtain ⟨⟨k, i⟩, counted, rfl⟩ := List.mem_map.mp among
  rw [find?_withMembers _ distinct counted] at found
  exact ⟨i, counted, (Option.some.inj found).symm⟩

/-- Different tuples have members with different numbers. -/
theorem index_unique_withMembers (distinct : xs.Nodup) {k' : Index} {p : Polynomial α}
    (found : ((empty name).withMembers n xs).members.find? k = some p)
    (found' : ((empty name).withMembers n xs).members.find? k' = some p) : k = k' := by
  obtain ⟨i, counted, rfl⟩ := exists_of_find?_withMembers distinct found
  obtain ⟨i', counted', same⟩ := exists_of_find?_withMembers distinct found'
  obtain rfl := Identifier.number_eq_of_numbered_eq (Polynomial.var_injective same)
  rw [List.mk_mem_zipIdx_iff_le_and_getElem?_sub] at counted counted'
  exact Option.some.inj (counted.2.symm.trans counted'.2)

end Family

section Members

variable [Scalar α] {m m' : Model α} {options : Variable.Options α}

namespace Model

theorem memberEntries_cons (family : String) (options : Variable.Options α) (n : Nat) (x : Index)
    (xs : List Index) : memberEntries family options n (x :: xs) =
      memberEntries family options n [x] ++ memberEntries family options (n + 1) xs := by
  simp [memberEntries]

/-- When the creation of members succeeds, it has registered those at the tuples without a member,
under names that had not been taken. -/
theorem members_of_addMember_ok {name : String} {v : Variable α}
    (defined : options.define name = .ok v) {n : Nat} {indices : List Index} {f f' : Family α}
    (uniform : ∀ k ∈ f.members.keys, k.length = n) (lengths : ∀ index ∈ indices, index.length = n)
    (done : (indices.foldlM (addMember options) f).runOn m = (.ok f', m')) :
    f' = f.withMembers m.nextVariable (f.missing indices) ∧
      m' = m.addMembers f.name options (f.missing indices) ∧
      ∀ entry ∈ memberEntries f.name options m.nextVariable (f.missing indices),
        m.vars.contains entry.1 = false := by
  induction indices generalizing f m with
  | nil =>
      rw [List.foldlM_nil, runOn_pure_ok] at done
      obtain ⟨rfl, rfl⟩ := done
      exact ⟨rfl, (addMembers_nil _ _ _).symm, fun _ none => absurd none List.not_mem_nil⟩
  | cons x indices ih =>
      obtain ⟨length, lengths⟩ := List.forall_mem_cons.mp lengths
      rw [List.foldlM_cons, runOn_bind] at done
      obtain ⟨present, step⟩ | ⟨missing, ⟨-, step⟩ | ⟨new, step⟩⟩ :=
        runOn_addMember defined (fun k member => (uniform k member).trans length.symm) m
      · rw [step] at done
        rw [Family.missing_cons_of_contains present]
        exact ih uniform lengths done
      · rw [step] at done
        cases done
      · rw [step] at done
        obtain ⟨rfl, rfl, fresh⟩ := ih (Family.uniform_insert uniform length _) lengths done
        rw [Family.missing_cons_of_lacks missing (.var (memberName f.name m.nextVariable x)),
          memberEntries_cons]
        refine ⟨rfl, addMembers_addMembers _ _ _ [x] _, fun entry member => ?_⟩
        obtain first | later := List.mem_append.mp member
        · obtain rfl := List.mem_singleton.mp first
          exact new
        · have absent := fresh entry later
          rw [Registry.contains_eq_false_iff, names_addMembers] at absent
          rw [Registry.contains_eq_false_iff]
          exact fun earlier => absent (List.mem_append_left _ earlier)

omit [Scalar α] in
/-- A family name is refused if it is taken. -/
theorem runOn_requireNewFamily_ok {name : String} :
    (requireNewFamily name).runOn m = (.ok (), m') ↔
      m.families.contains name = false ∧ m' = m := by
  cases taken : m.families.contains name with
  | true => simp [requireNewFamily, runOn_bind, taken]
  | false => simp [requireNewFamily, runOn_bind, taken, @eq_comm _ m]

/-- How a model comes from another one by the creation of a family `f`, which has met `indices` and
registered the variables `added`. -/
structure Created (m m' : Model α) (f : Family α) (options : Variable.Options α)
    (indices : List Index) (added : List (String × Variable α)) : Prop where
  /-- The family has members at the tuples that were met. -/
  contains_iff : ∀ k, f.members.contains k = true ↔ k ∈ indices
  /-- No two tuples share a member. -/
  apart : ∀ k k' p, f.members.find? k = some p → f.members.find? k' = some p → k = k'
  /-- The tuples that were met, each once and in order of first occurrence, are numbered from the
  counter on. Each of them has its variable, which is new, is named after the tuple and its number,
  and is defined by the options. -/
  registered : List.Forall₂ (fun (numbered : Index × Nat) entry =>
      f.members.find? numbered.1 = some (.var entry.1) ∧
        entry.1 = memberName f.name numbered.2 numbered.1 ∧
        options.define entry.1 = .ok entry.2 ∧ m.vars.contains entry.1 = false)
    (indices.eraseDups.zipIdx m.nextVariable) added
  size : added.length = f.size
  /-- Nothing else has changed. -/
  model : m' = { m with
    vars := ⟨m.vars.entries ++ added⟩
    nextVariable := m.nextVariable + added.length
    families := m.families.insert f.name f }
  new : m.families.contains f.name = false
  stored : m'.families.find? f.name = some f
  others : ∀ other ≠ f.name, m'.families.find? other = m.families.find? other

variable {name : String} {generators : List (Generator α)} {data : Data α} {f : Family α}
  {indices : List Index}

/-- A creation that succeeds ends with members at all tuples and stores the family. -/
theorem exists_of_createFamily_ok
    (done : (createFamily name generators options data).runOn m = (.ok f, m')) :
    ∃ indices v, familyIndices generators data = .ok indices ∧ options.define name = .ok v ∧
      m.families.contains name = false ∧
      (∀ entry ∈ memberEntries name options m.nextVariable indices.eraseDups,
        m.vars.contains entry.1 = false) ∧
      f = (Family.empty name).withMembers m.nextVariable indices.eraseDups ∧
      m' = { m.addMembers name options indices.eraseDups with
        families := m.families.insert f.name f } := by
  obtain ⟨_, _, checked, defining⟩ := runOn_bind_ok.mp done
  obtain ⟨new, rfl⟩ := runOn_requireNewFamily_ok.mp checked
  obtain ⟨v, _, permitted, expanding⟩ := runOn_bind_ok.mp defining
  obtain ⟨defined, rfl⟩ := runOn_liftM_ok.mp permitted
  obtain ⟨indices, _, listed, creating⟩ := runOn_bind_ok.mp expanding
  obtain ⟨expanded, rfl⟩ := runOn_liftM_ok.mp listed
  obtain ⟨f', _, members, storing⟩ := runOn_bind_ok.mp creating
  obtain ⟨made, rfl, fresh⟩ := members_of_addMember_ok defined (f := .empty name)
    (fun _ none => absurd none List.not_mem_nil) (length_of_familyIndices expanded) members
  rw [Family.missing_empty] at made fresh storing
  cases storing
  exact ⟨indices, v, expanded, defined, new, fresh, made, rfl⟩

theorem created_of_members {v : Variable α} (defined : options.define name = .ok v)
    (new : m.families.contains name = false)
    (fresh : ∀ entry ∈ memberEntries name options m.nextVariable indices.eraseDups,
      m.vars.contains entry.1 = false)
    (made : f = (Family.empty name).withMembers m.nextVariable indices.eraseDups)
    (after : m' = { m.addMembers name options indices.eraseDups with
      families := m.families.insert f.name f }) :
    m.Created m' f options indices
      (memberEntries name options m.nextVariable indices.eraseDups) := by
  have distinct := nodup_eraseDups indices
  have perm : f.members.keys.Perm indices.eraseDups := made ▸ Family.keys_withMembers_perm distinct
  obtain rfl : f.name = name := made ▸ Family.name_withMembers
  have length : (memberEntries f.name options m.nextVariable indices.eraseDups).length =
      indices.eraseDups.length := by
    simp [memberEntries]
  subst after
  constructor
  case contains_iff =>
    intro k
    rw [SortedTable.contains_iff, perm.mem_iff, List.mem_eraseDups]
  case apart =>
    intro k k' p found found'
    rw [made] at found found'
    exact Family.index_unique_withMembers distinct found found'
  case registered =>
    refine List.forall₂_map_right_iff.mpr (List.forall₂_same.mpr fun numbered counted => ?_)
    refine ⟨?_, rfl, Variable.Options.define_of_define defined _, ?_⟩
    · have found := (Family.empty f.name : Family α).find?_withMembers distinct counted
      rwa [← made] at found
    · exact fresh _ (List.mem_map_of_mem counted)
  case size => rw [length, ← perm.length_eq, SortedTable.keys, List.length_map]; rfl
  case model => rw [length]; rfl
  case new => exact new
  case stored => exact SortedTable.find?_insert_self ..
  case others =>
    intro other different
    exact SortedTable.find?_insert_of_ne different ..

/-- A family that is created has members at the tuples that generators produce, and at no others.
These tuples are what the scopes of nested loops give to the symbols; without generators there is
the empty tuple. -/
theorem createFamily_creates
    (done : (createFamily name generators options data).runOn m = (.ok f, m')) :
    f.name = name ∧ ∃ scopes indices added,
      (generators = [] ∧ scopes = [.ofData data] ∨
        Generator.expand generators (.ofData data) = .ok scopes) ∧
      List.Forall₂ (fun s (index : Index) =>
        index.map some = generators.map fun g => s.lookup? g.symbol) scopes indices ∧
      m.Created m' f options indices added := by
  obtain ⟨indices, v, expanded, defined, new, fresh, made, after⟩ := exists_of_createFamily_ok done
  obtain ⟨scopes, reached, looked⟩ := exists_scopes_of_familyIndices expanded
  exact ⟨made ▸ Family.name_withMembers, scopes, indices, _, reached, looked,
    created_of_members defined new fresh made after⟩

/-- The third generator hides the first one, so that the tuples repeat. One variable had been
registered before. -/
theorem family_created_once :
    let i : Generator Float := .of "i" (.values [2, 1, 2])
    let j : Generator Float := .of "j" (.range (.symbol "i") (.const 2))
    let again : Generator Float := .of "i" (.values [7])
    let m : Model Float := .build .minimize .standard [.createVariable "y" .free]
    let creation := createFamily "x" [i, j, again] .binary .empty
    m.Reachable ∧ ∃ f m' indices added, creation.runOn m = (.ok f, m') ∧
      indices.length = 4 ∧ m.Created m' f .binary indices added ∧
      f.members.keys = [[7, 1, 7], [7, 2, 7]] ∧
      m'.vars.names = ["v00000_y", "v00001_x_7_2_7", "v00002_x_7_1_7"] := by
  intro i j again m creation
  have succeeds : (creation.runOn m).1.isOk = true := by decide +kernel
  obtain ⟨f, m', done⟩ := exists_of_isOk succeeds
  obtain ⟨-, scopes, indices, added, expanded, looked, created⟩ := createFamily_creates done
  have listed : (Generator.expand [i, j, again] (.ofData .empty)).map List.length = .ok 4 := by
    decide +kernel
  have keys : (creation.runOn m).1.map (fun f => f.members.keys) =
      .ok [[7, 1, 7], [7, 2, 7]] := by
    decide +kernel
  have names : (creation.runOn m).2.vars.names =
      ["v00000_y", "v00001_x_7_2_7", "v00002_x_7_1_7"] := by
    decide +kernel
  obtain ⟨none, -⟩ | expanded := expanded
  · cases none
  · rw [expanded] at listed
    rw [done] at keys names
    refine ⟨Model.reachable_build _ _ _, f, m', indices, added, done, ?_, created,
      Except.ok.inj keys, names⟩
    rw [← looked.length_eq, Except.ok.inj listed]

end Model

end Members

end MipModel
