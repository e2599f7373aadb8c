import MipModel.Proofs.CreatedFamilies
import MipModel.Proofs.Lookups

/-!
# Wildcards and sums over generators

A family that generators have created can be summed in two ways: by a sum over the same generators,
whose body looks up one member at a time, and by a reference with wildcards, which adds up the
members that fit in the order of their tuples. The first way goes through the loops in their order,
the second through the family in its order; both meet every member once. The members are different
variables, so their sum has one term for each of them, whatever the order
(`wildcards_sum_generators`).
-/

namespace MipModel

open Model Build

namespace SortedTable

variable {κ β : Type} [DecidableEq κ] [LT κ] [DecidableLT κ]

/-- A new key gets an entry of its own. -/
theorem insertEntry_perm {k : κ} (v : β) {entries : List (κ × β)}
    (new : k ∉ entries.map Prod.fst) : (insertEntry k v entries).Perm ((k, v) :: entries) := by
  induction entries with
  | nil => exact .refl _
  | cons e rest ih =>
      obtain ⟨different, later⟩ := List.ne_and_not_mem_of_not_mem_cons new
      rw [insertEntry, if_neg different]
      split
      · exact .refl _
      · exact ((ih later).cons e).trans (.swap ..)

end SortedTable

variable {α : Type} [Scalar α]

namespace Polynomial

section Variables

/-! Sums of different variables. -/

variable {p : Polynomial α} {x : String} {names : List String}

/-- A variable that does not occur gets a term of its own. -/
theorem toList_add_var_perm (one : ((1 : α) == 0) = false) (sum : (0 : α) + 1 = 1)
    (new : Monomial.var x ∉ p.terms.keys) :
    (p.add (.var x)).toList.Perm ((Monomial.var x, 1) :: p.toList) := by
  have absent : p.terms.find? (Monomial.var x) = none := by
    rw [← Option.not_isSome_iff_eq_none]
    exact fun found => new (SortedTable.contains_iff.mp found)
  have added : p.add (.var x) = ⟨p.terms.insert (Monomial.var x) 1⟩ := by
    show p.addTerm (Monomial.var x) 1 = _
    simp [addTerm, coefficient, absent, one, sum]
  rw [added]
  exact SortedTable.insertEntry_perm 1 new

theorem var_mem_keys_sum (inside : Monomial.var x ∈
    (sum (names.map (var : String → Polynomial α))).terms.keys) : x ∈ names := by
  obtain ⟨p, member, key⟩ := mem_keys_sum inside
  obtain ⟨y, listed, rfl⟩ := List.mem_map.mp member
  obtain same : Monomial.var x = Monomial.var y := List.mem_singleton.mp key
  obtain rfl : x = y := by simpa [Monomial.var] using same
  exact listed

/-- A sum of different variables has one term for each of them. -/
theorem toList_sum_vars_perm (one : ((1 : α) == 0) = false) (unit : (0 : α) + 1 = 1)
    (distinct : names.Nodup) : (sum (names.map (var : String → Polynomial α))).toList.Perm
      (names.map fun x => (Monomial.var x, 1)) := by
  induction names using List.reverseRecOn with
  | nil => exact .refl _
  | append_singleton names x ih =>
      obtain ⟨distinct, -, apart⟩ := List.nodup_append.mp distinct
      have new : Monomial.var x ∉ (sum (names.map (var : String → Polynomial α))).terms.keys :=
        fun inside => apart x (var_mem_keys_sum inside) x (List.mem_singleton_self x) rfl
      rw [List.map_append, List.map_append, sum, List.map_singleton, List.foldl_concat]
      refine (toList_add_var_perm one unit new).trans (((ih distinct).cons _).trans ?_)
      exact (List.perm_append_singleton _ _).symm

/-- The order in which different variables are added up does not matter. -/
theorem sum_vars_eq_of_perm (one : ((1 : α) == 0) = false) (unit : (0 : α) + 1 = 1)
    {names' : List String} (distinct : names.Nodup) (perm : names.Perm names') :
    sum (names.map (var : String → Polynomial α)) = sum (names'.map var) := by
  have terms := toList_sum_vars_perm one unit distinct
  have terms' := toList_sum_vars_perm one unit (perm.nodup_iff.mp distinct)
  have same := terms.trans ((perm.map fun x => (Monomial.var x, (1 : α))).trans terms'.symm)
  exact congrArg Polynomial.mk ((ordered_sum _).ext (ordered_sum _) fun _ => same.mem_iff)

end Variables
end Polynomial

section References

variable {families : Families α} {name : String} {f : Family α} {scope : Scope α}
  {written : List (IndexExpr α)} {pattern : Pattern} {generators : List (Generator α)}

/-- The symbols of generators stand for the tuple that a scope gives to them. -/
theorem IndexExpr.resolveAll_symbols
    (bound : ∀ g ∈ generators, (scope.lookup? g.symbol).isSome = true) :
    resolveAll scope (generators.map fun g => .symbol g.symbol) =
      .ok (.exact (Generator.indexIn generators scope)) := by
  induction generators with
  | nil => rfl
  | cons g generators ih =>
      obtain ⟨first, rest⟩ := List.forall_mem_cons.mp bound
      obtain ⟨value, found⟩ := Option.isSome_iff_exists.mp first
      have tuple : Generator.indexIn (g :: generators) scope =
          value :: Generator.indexIn generators scope := by
        rw [Generator.indexIn, List.filterMap_cons, found, Generator.indexIn]
      rw [List.map_cons, resolveAll, ih rest, resolve, found, tuple]
      rfl

theorem IndexExpr.resolveAll_wildcards (scope : Scope α) (n : Nat) :
    resolveAll scope (List.replicate n .wildcard) = .ok (List.replicate n .wildcard) := by
  induction n with
  | zero => rfl
  | succ n ih =>
      rw [List.replicate_succ, resolveAll, ih]
      rfl

/-- Every tuple agrees with as many wildcards as it has components. -/
theorem Pattern.agrees_wildcards {n : Nat} {index : Index} :
    Pattern.Agrees (List.replicate n .wildcard) index ↔ index.length = n := by
  induction n generalizing index with
  | zero => simp [Agrees]
  | succ n ih => cases index <;> simp_all [Agrees, List.replicate_succ]

/-- A reference with a wildcard is the sum of the members that fit. -/
theorem Expr.evaluate_var_of_hasWildcard (stored : families.find? name = some f)
    (resolved : IndexExpr.resolveAll scope written = .ok pattern)
    (wild : pattern.hasWildcard = true) :
    (Expr.var name written).evaluate families scope = .ok (f.sumFitting pattern) := by
  rw [evaluate, Families.resolve, Families.lookup, stored, resolved]
  exact if_pos wild

/-- A reference to one tuple looks it up. -/
theorem Expr.evaluate_var_of_exact {index : Index} (stored : families.find? name = some f)
    (resolved : IndexExpr.resolveAll scope written = .ok (.exact index)) :
    (Expr.var name written).evaluate families scope = f.lookup index := by
  rw [evaluate, Families.resolve, Families.lookup, stored, resolved]
  refine (if_neg (by simp)).trans ?_
  rw [Pattern.index?_exact]

/-- A sum adds up what its body denotes in the scopes of the innermost loop. -/
theorem Expr.evaluate_sum {body : Expr α} {scopes : List (Scope α)}
    (expanded : Generator.expand generators scope = .ok scopes) {summand : Scope α → Polynomial α}
    (each : ∀ s ∈ scopes, body.evaluate families s = .ok (summand s)) :
    (Expr.sum body generators).evaluate families scope =
      .ok (Polynomial.sum (scopes.map summand)) := by
  have collected : scopes.mapM (fun s => (body.evaluate families s).mapError fun e =>
      e.withContext (body.summandText s)) = .ok (scopes.map summand) := by
    refine mapM_eq_ok_iff.mpr (List.forall₂_map_right_iff.mpr (List.forall₂_same.mpr ?_))
    exact fun s reached => mapError_eq_ok_iff.mpr (each s reached)
  have folded := foldlM_eq_mapM (fun s => (body.evaluate families s).mapError fun e =>
    e.withContext (body.summandText s)) Polynomial.add scopes Polynomial.zero
  rw [collected] at folded
  rw [evaluate, expanded]
  exact folded

/-- A stored family has a variable of its own for every tuple of a list, and no other members. All
tuples have one length. -/
structure Families.Enumerated (families : Families α) (name : String) (f : Family α)
    (indices : List Index) (n : Nat) (member : Index → String) : Prop where
  stored : families.find? name = some f
  ordered : f.members.Ordered
  perm : f.members.keys.Perm indices
  found : ∀ k ∈ indices, f.members.find? k = some (.var (member k))
  names : (indices.map member).Nodup
  lengths : ∀ k ∈ indices, k.length = n

namespace Families.Enumerated

variable {indices : List Index} {n : Nat} {member : Index → String}

theorem lookup (h : families.Enumerated name f indices n member) {k : Index}
    (inside : k ∈ indices) : f.lookup k = .ok (.var (member k)) := by
  rw [Family.lookup_eq_find fun k' inside' =>
    (h.lengths k' (h.perm.mem_iff.mp inside')).trans (h.lengths k inside).symm, Family.lookup.find,
    h.found k inside]

/-- A sum over generators looks up one member for every tuple that the loops meet. -/
theorem evaluate_loop {scopes : List (Scope α)}
    (expanded : Generator.expand generators scope = .ok scopes)
    (h : families.Enumerated name f (scopes.map (Generator.indexIn generators)) n member) :
    (Expr.sum (.var name (generators.map fun g => .symbol g.symbol)) generators).evaluate
      families scope = .ok (Polynomial.sum
        (((scopes.map (Generator.indexIn generators)).map member).map Polynomial.var)) := by
  have bound := Generator.bound_of_expand expanded
  have each : ∀ s ∈ scopes,
      (Expr.var name (generators.map fun g => .symbol g.symbol)).evaluate families s =
        .ok (.var (member (Generator.indexIn generators s))) := fun s reached => by
    rw [Expr.evaluate_var_of_exact h.stored (IndexExpr.resolveAll_symbols (bound s reached))]
    exact h.lookup (List.mem_map_of_mem reached)
  rw [Expr.evaluate_sum expanded each]
  simp [Function.comp_def]

variable (one : ((1 : α) == 0) = false) (unit : (0 : α) + 1 = 1)
include one unit

/-- The sum of the members that fit a pattern is the sum over the tuples that fit, in any order. -/
theorem sumFitting (h : families.Enumerated name f indices n member) (pattern : Pattern) :
    f.sumFitting pattern =
      Polynomial.sum (((indices.filter pattern.fits).map member).map Polynomial.var) := by
  have selected : (f.fitting pattern).map Prod.snd =
      ((f.members.keys.filter pattern.fits).map member).map Polynomial.var := by
    rw [Family.fitting, SortedTable.keys, List.filter_map, List.map_map, List.map_map]
    refine List.map_congr_left fun e selected => ?_
    have inside : e ∈ f.members.entries := (List.mem_filter.mp selected).1
    have found := (h.ordered.find?_eq_some_iff (k := e.1) (v := e.2)).mpr inside
    have met := h.perm.mem_iff.mp (List.mem_map_of_mem (f := Prod.fst) inside)
    exact Option.some.inj (found.symm.trans (h.found e.1 met))
  have reordered := ((h.perm.filter pattern.fits).map member).symm
  have some : ((indices.filter pattern.fits).map member).Nodup :=
    h.names.sublist (List.filter_sublist.map member)
  rw [Family.sumFitting, selected]
  exact (Polynomial.sum_vars_eq_of_perm one unit some reordered).symm

/-- Wildcards in all places select every member. -/
theorem evaluate_wildcards (h : families.Enumerated name f indices n member) (some : n ≠ 0) :
    (Expr.var name (List.replicate n .wildcard)).evaluate families scope =
      .ok (Polynomial.sum ((indices.map member).map Polynomial.var)) := by
  have all : indices.filter (Pattern.fits (List.replicate n .wildcard)) = indices := by
    refine List.filter_eq_self.mpr fun k inside => ?_
    rw [Pattern.fits_iff, Pattern.agrees_wildcards]
    exact h.lengths k inside
  have wild : Pattern.hasWildcard (List.replicate n .wildcard) = true := by
    rw [Pattern.hasWildcard, List.any_replicate, if_neg some]
    rfl
  rw [Expr.evaluate_var_of_hasWildcard h.stored (IndexExpr.resolveAll_wildcards scope _) wild,
    h.sumFitting one unit, all]

/-- A reference with a wildcard has one term for every member whose tuple agrees with it. -/
theorem evaluate_pattern (h : families.Enumerated name f indices n member)
    (resolved : IndexExpr.resolveAll scope written = .ok pattern)
    (wild : pattern.hasWildcard = true) : ∃ (selected : List Index) (p : Polynomial α),
      selected.Sublist indices ∧
      (∀ k, k ∈ selected ↔ k ∈ indices ∧ pattern.Agrees k) ∧
      (Expr.var name written).evaluate families scope = .ok p ∧
      p = Polynomial.sum (selected.map fun k => .var (member k)) ∧
      p.toList.Perm (selected.map fun k => (Monomial.var (member k), (1 : α))) := by
  have sum := h.sumFitting one unit pattern
  refine ⟨indices.filter pattern.fits, _, List.filter_sublist, fun k => ?_,
    Expr.evaluate_var_of_hasWildcard h.stored resolved wild, ?_, ?_⟩
  · rw [List.mem_filter, Pattern.fits_iff]
  · rw [sum, List.map_map]
    rfl
  · rw [sum]
    have some := h.names.sublist ((List.filter_sublist (p := pattern.fits)).map member)
    exact (Polynomial.toList_sum_vars_perm one unit some).trans (.of_eq List.map_map)

end Families.Enumerated

end References

section Creation

variable {m m' : Model α} {options : Variable.Options α} {f : Family α} {indices : List Index}
  {generators : List (Generator α)} {data : Data α} {scopes : List (Scope α)}

/-- A creation has registered a variable for every tuple that was met. -/
theorem Model.Created.exists_member {added : List (String × Variable α)}
    (h : m.Created m' f options indices added) {k : Index} (met : k ∈ indices) :
    ∃ x, f.members.find? k = some (.var x) ∧ m.vars.contains x = false ∧
      m'.vars.contains x = true := by
  obtain ⟨i, counted⟩ : ∃ i, (k, i) ∈ indices.eraseDups.zipIdx m.nextVariable := by
    have among : k ∈ (indices.eraseDups.zipIdx m.nextVariable).map Prod.fst := by
      rw [List.zipIdx_map_fst]
      exact List.mem_eraseDups.mpr met
    obtain ⟨⟨k', i⟩, counted, rfl⟩ := List.mem_map.mp among
    exact ⟨i, counted⟩
  obtain ⟨entry, member, found, -, -, new⟩ := h.registered.exists_right counted
  refine ⟨entry.1, found, new, ?_⟩
  rw [Registry.contains_eq_true_iff, h.model]
  exact List.mem_map_of_mem (List.mem_append_right _ member)

theorem Model.familyIndices_of_expand
    (expanded : Generator.expand generators (.ofData data) = .ok scopes) :
    familyIndices generators data = .ok (scopes.map (Generator.indexIn generators)) := by
  have some := Generator.ne_nil_of_expand expanded
  rw [familyIndices, if_neg (mt List.isEmpty_iff.mp some), expanded]
  rfl

/-- A family that generators create is summed alike by a sum over the generators and by a reference
with wildcards only. A reference with a wildcard is the sum of the members at the tuples that agree
with its pattern, each of them a different variable with coefficient one; a reference to a single
tuple is the member there. -/
theorem Model.wildcards_sum_generators {m m' : Model Float} {name : String}
    {generators : List (Generator Float)} {options : Variable.Options Float} {data : Data Float}
    {f : Family Float} {scopes : List (Scope Float)}
    (done : (createFamily name generators options data).runOn m = (.ok f, m'))
    (expanded : Generator.expand generators (.ofData data) = .ok scopes)
    (distinct : (scopes.map (Generator.indexIn generators)).Nodup) :
    let indices := scopes.map (Generator.indexIn generators)
    ∃ member : Index → String,
      (∀ k ∈ indices, f.members.find? k = some (.var (member k)) ∧
        m.vars.contains (member k) = false ∧ m'.vars.contains (member k) = true) ∧
      (∀ k ∈ indices, ∀ k' ∈ indices, member k = member k' → k = k') ∧
      (∃ p, (Expr.sum (.var name (generators.map fun g => .symbol g.symbol)) generators).evaluate
          m'.families (.ofData data) = .ok p ∧
        ∀ scope, (Expr.var name (List.replicate generators.length .wildcard)).evaluate
          m'.families scope = .ok p) ∧
      ∀ scope written pattern, IndexExpr.resolveAll scope written = .ok pattern →
        (pattern.hasWildcard = true → ∃ (selected : List Index) (p : Polynomial Float),
          selected.Sublist indices ∧
          (∀ k, k ∈ selected ↔ k ∈ indices ∧ pattern.Agrees k) ∧
          (Expr.var name written).evaluate m'.families scope = .ok p ∧
          p = Polynomial.sum (selected.map fun k => .var (member k)) ∧
          p.toList.Perm (selected.map fun k => (Monomial.var (member k), 1))) ∧
        ∀ k ∈ indices, pattern = .exact k →
          (Expr.var name written).evaluate m'.families scope = .ok (.var (member k)) := by
  intro indices
  have one : ((1 : Float) == 0) = false := by decide +kernel
  have unit : (0 : Float) + 1 = 1 := by decide +kernel
  obtain ⟨indices', v, listed, defined, new, fresh, made, after⟩ := exists_of_createFamily_ok done
  obtain rfl : indices = indices' := by
    rw [familyIndices_of_expand expanded] at listed
    exact Except.ok.inj listed
  have created := created_of_members defined new fresh made after
  obtain rfl : f.name = name := made ▸ Family.name_withMembers
  choose! member found unused registered using fun k (h : k ∈ indices) => created.exists_member h
  have apart : ∀ k ∈ indices, ∀ k' ∈ indices, member k = member k' → k = k' :=
    fun k inside k' inside' same =>
      created.apart k k' _ (found k inside) (same ▸ found k' inside')
  have ordered : f.members.Ordered := made ▸ Family.ordered_withMembers List.Pairwise.nil
  have enumerated : m'.families.Enumerated f.name f indices generators.length member := {
    stored := created.stored
    ordered := ordered
    perm := (List.perm_ext_iff_of_nodup ordered.nodup distinct).mpr fun k => by
      rw [← SortedTable.contains_iff, created.contains_iff]
    found := found
    names := List.Nodup.map_on apart distinct
    lengths := length_of_familyIndices listed }
  have some : generators.length ≠ 0 :=
    mt List.length_eq_zero_iff.mp (Generator.ne_nil_of_expand expanded)
  refine ⟨member, fun k inside => ⟨found k inside, unused k inside, registered k inside⟩, apart,
    ⟨_, enumerated.evaluate_loop expanded, fun scope => enumerated.evaluate_wildcards one unit some⟩,
    fun scope written pattern resolved => ⟨enumerated.evaluate_pattern one unit resolved, ?_⟩⟩
  rintro k inside rfl
  rw [Expr.evaluate_var_of_exact enumerated.stored resolved, enumerated.lookup inside]

/-- The inner domain depends on the outer symbol, and the loops do not meet the tuples in their
order. -/
theorem Model.triangle_summed :
    let i : Generator Float := .of "i" (.values [2, 1])
    let j : Generator Float := .of "j" (.range (.symbol "i") (.const 2))
    let m : Model Float := .build .minimize .standard [.createVariable "y" .free]
    let creation := createFamily "x" [i, j] .free .empty
    m.Reachable ∧ ∃ f m' p, creation.runOn m = (.ok f, m') ∧
      (Expr.sum (.var "x" [.symbol "i", .symbol "j"]) [i, j]).evaluate m'.families
        (.ofData .empty) = .ok p ∧
      (Expr.var "x" [.wildcard, .wildcard]).evaluate m'.families .empty = .ok p ∧
      p.vars = ["v00001_x_2_2", "v00002_x_1_1", "v00003_x_1_2"] ∧
      ∃ selected : List Index, ∃ q, (∀ k, k ∈ selected ↔ k ∈ [[2, 2], [1, 1], [1, 2]] ∧
          Pattern.Agrees [.value 1, .wildcard] k) ∧
        (Expr.var "x" [.literal 1, .wildcard]).evaluate m'.families .empty = .ok q ∧
        q.toList.length = selected.length ∧ q.vars = ["v00002_x_1_1", "v00003_x_1_2"] := by
  intro i j m creation
  have succeeds : (creation.runOn m).1.isOk = true := by decide +kernel
  obtain ⟨f, m', done⟩ := exists_of_isOk succeeds
  have listed : (Generator.expand [i, j] (.ofData .empty)).map
      (List.map (Generator.indexIn [i, j])) = .ok [[2, 2], [1, 1], [1, 2]] := by
    decide +kernel
  cases expanded : Generator.expand [i, j] (.ofData .empty) with
  | error e => rw [expanded] at listed; cases listed
  | ok scopes =>
      rw [expanded] at listed
      have indices : scopes.map (Generator.indexIn [i, j]) = [[2, 2], [1, 1], [1, 2]] :=
        Except.ok.inj listed
      obtain ⟨member, -, -, ⟨p, looped, wild⟩, patterns⟩ :=
        wildcards_sum_generators done expanded (by rw [indices]; decide)
      obtain ⟨selected, q, -, agree, evaluated, -, terms⟩ :=
        (patterns .empty [.literal 1, .wildcard] [.value 1, .wildcard] rfl).1 rfl
      rw [indices] at agree
      have sum : ((Expr.var "x" [.wildcard, .wildcard]).evaluate (creation.runOn m).2.families
          .empty).map Polynomial.vars =
            .ok ["v00001_x_2_2", "v00002_x_1_1", "v00003_x_1_2"] := by
        decide +kernel
      have row : ((Expr.var "x" [.literal 1, .wildcard]).evaluate (creation.runOn m).2.families
          .empty).map Polynomial.vars = .ok ["v00002_x_1_1", "v00003_x_1_2"] := by
        decide +kernel
      have everything : (Expr.var "x" [.wildcard, .wildcard]).evaluate m'.families .empty =
        .ok p := wild .empty
      rw [done] at sum row
      rw [everything] at sum
      rw [evaluated] at row
      refine ⟨Model.reachable_build _ _ _, f, m', p, done, looped, everything,
        Except.ok.inj sum, selected, q, agree, evaluated, ?_, Except.ok.inj row⟩
      rw [terms.length_eq, List.length_map]

end Creation
end MipModel
