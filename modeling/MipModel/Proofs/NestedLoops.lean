import MipModel.Proofs.Building
import MipModel.Expr.Expansion
import MipModel.Scalar.Binary64

/-!
# Generators as nested loops

The expansion of generators works level by level: it keeps a list of scopes and replaces each of
them by the scopes of one more loop. What it stands for is nested loops, the first generator
outermost, which run from scope to scope (`nestedLoops`). Both list the same scopes in the same
order (`expand_eq_nestedLoops`).

They differ in what they look at. The symbol of a generator is checked even if no scope reaches its
loop, whereas its domain is evaluated in the scopes that do (`Runs`).
-/

namespace MipModel

open Build

variable {α : Type}

@[simp] theorem Scope.lookup?_bind (s : Scope α) (symbol other : String) (value : Int) :
    (s.bind symbol value).lookup? other =
      if symbol = other then some value else s.lookup? other := by
  by_cases same : symbol = other <;> simp [Scope.lookup?, Scope.bind, same]

namespace Scope

/-- Bind symbols to values one after another, the last of them innermost. -/
def bindAll (s : Scope α) (symbols : List String) (values : List Int) : Scope α :=
  { s with bindings := (symbols.zip values).reverse ++ s.bindings }

variable {s : Scope α} {symbols : List String} {values : List Int} {x : String}

@[simp] theorem bindAll_cons (s : Scope α) (symbol : String) (symbols : List String) (n : Int)
    (values : List Int) :
    s.bindAll (symbol :: symbols) (n :: values) = (s.bind symbol n).bindAll symbols values := by
  simp [bindAll, bind]

theorem lookup?_bindAll_of_notMem (h : x ∉ symbols) :
    (s.bindAll symbols values).lookup? x = s.lookup? x := by
  induction symbols generalizing s values with
  | nil => rfl
  | cons symbol symbols ih =>
      obtain ⟨different, later⟩ := List.ne_and_not_mem_of_not_mem_cons h
      cases values with
      | nil => rfl
      | cons n values => simp [ih later, Ne.symm different]

/-- With a value for each of them, all symbols are bound. -/
theorem isSome_lookup?_bindAll (enough : values.length = symbols.length) (bound : x ∈ symbols) :
    ((s.bindAll symbols values).lookup? x).isSome = true := by
  induction symbols generalizing s values with
  | nil => cases bound
  | cons symbol symbols ih =>
      cases values with
      | nil => cases enough
      | cons n values =>
          rw [bindAll_cons]
          by_cases inside : x ∈ symbols
          · exact ih (Nat.succ.inj enough) inside
          · obtain rfl := (List.mem_cons.mp bound).resolve_right inside
            simp [lookup?_bindAll_of_notMem inside]

/-- The innermost binding of a symbol counts. -/
theorem lookup?_bindAll_append {inside : List String} (innermost : x ∉ inside) {n : Int}
    (here : values[symbols.length]? = some n) :
    (s.bindAll (symbols ++ x :: inside) values).lookup? x = some n := by
  induction symbols generalizing s values with
  | nil =>
      cases values with
      | nil => cases here
      | cons m values =>
          obtain rfl : m = n := Option.some.inj here
          simp [lookup?_bindAll_of_notMem innermost]
  | cons symbol symbols ih =>
      cases values with
      | nil => cases here
      | cons m values =>
          rw [List.cons_append, bindAll_cons]
          exact ih here

end Scope

namespace Generator

/-- The symbol can be bound: it is neither empty nor the wildcard. -/
def Bindable (g : Generator α) : Prop := g.symbol ≠ "" ∧ g.symbol ≠ "_"

variable [Scalar α]

/-- The scopes in which the body of nested loops runs, the first generator outermost. A loop whose
domain cannot be evaluated does not run. -/
def nestedLoops : List (Generator α) → Scope α → List (Scope α)
  | [], scope => [scope]
  | g :: rest, scope =>
    match g.domain.valuesIn scope with
    | .ok values => values.flatMap fun n => nestedLoops rest (scope.bind g.symbol n)
    | .error _ => []

/-- The domain of every loop can be evaluated in every scope that reaches the loop. -/
def Runs : List (Generator α) → Scope α → Prop
  | [], _ => True
  | g :: rest, scope => ∃ values, g.domain.valuesIn scope = .ok values ∧
    ∀ n ∈ values, Runs rest (scope.bind g.symbol n)

variable {g : Generator α} {generators rest : List (Generator α)} {scope s : Scope α}
  {scopes inner : List (Scope α)}

theorem nestedLoops_cons {values : List Int} (domain : g.domain.valuesIn scope = .ok values) :
    nestedLoops (g :: rest) scope =
      values.flatMap fun n => nestedLoops rest (scope.bind g.symbol n) := by
  rw [nestedLoops, domain]

/-- A scope of the innermost loop comes from one value of the outermost. -/
theorem mem_nestedLoops_cons : s ∈ nestedLoops (g :: rest) scope ↔
    ∃ values, g.domain.valuesIn scope = .ok values ∧
      ∃ n ∈ values, s ∈ nestedLoops rest (scope.bind g.symbol n) := by
  cases domain : g.domain.valuesIn scope with
  | error e => simp [nestedLoops, domain]
  | ok values => simp [nestedLoops, domain]

/-- Values that nested loops take together, each of them from the domain of its loop under the
values of the loops around it. -/
inductive Takes : List (Generator α) → Scope α → List Int → Prop where
  | nil {scope : Scope α} : Takes [] scope []
  | cons {g : Generator α} {rest : List (Generator α)} {scope : Scope α} {members : List Int}
      {n : Int} {values : List Int} : g.domain.valuesIn scope = .ok members → n ∈ members →
      Takes rest (scope.bind g.symbol n) values → Takes (g :: rest) scope (n :: values)

/-- The scopes of nested loops bind the symbols of the loops in order, to values that these take. -/
theorem mem_nestedLoops_iff : s ∈ nestedLoops generators scope ↔
    ∃ values, Takes generators scope values ∧ s = scope.bindAll (generators.map symbol) values := by
  induction generators generalizing scope with
  | nil =>
      constructor
      · intro single
        exact ⟨[], .nil, List.mem_singleton.mp single⟩
      · rintro ⟨values, -, rfl⟩
        exact List.mem_singleton_self scope
  | cons g rest ih =>
      rw [mem_nestedLoops_cons]
      constructor
      · rintro ⟨members, domain, n, member, reached⟩
        obtain ⟨values, takes, rfl⟩ := ih.mp reached
        exact ⟨n :: values, .cons domain member takes, (Scope.bindAll_cons ..).symm⟩
      · rintro ⟨_, takes, rfl⟩
        cases takes with
        | @cons _ _ _ members n values domain member takes =>
            refine ⟨members, domain, n, member, ih.mpr ⟨values, takes, ?_⟩⟩
            exact Scope.bindAll_cons ..

theorem Takes.length_eq {values : List Int} (h : Takes generators scope values) :
    values.length = generators.length := by
  induction h with
  | nil => rfl
  | cons _ _ _ ih => rw [List.length_cons, List.length_cons, ih]

/-- The value of each loop, in the domain of the loop under the values before it. -/
theorem Takes.exists_member {before after : List (Generator α)} {values : List Int}
    (h : Takes (before ++ g :: after) scope values) :
    ∃ members, g.domain.valuesIn (scope.bindAll (before.map symbol) values) = .ok members ∧
      ∃ n ∈ members, values[before.length]? = some n := by
  induction before generalizing scope values with
  | nil =>
      cases h with
      | @cons _ _ _ members n values domain member takes => exact ⟨members, domain, n, member, rfl⟩
  | cons first before ih =>
      cases h with
      | @cons _ _ _ _ m values _ _ takes =>
          simpa using ih takes

/-- The domains of loops one by one, each in the scopes of the loops before it. -/
theorem runs_iff : Runs generators scope ↔
    ∀ before g after, generators = before ++ g :: after →
      ∀ s ∈ nestedLoops before scope, ∃ values, g.domain.valuesIn s = .ok values := by
  induction generators generalizing scope with
  | nil =>
      refine iff_of_true trivial ?_
      intro before g after split
      exact absurd split.symm (by simp)
  | cons g rest ih =>
      constructor
      · rintro ⟨values, domain, inside⟩ before g' after split s reached
        cases before with
        | nil =>
            obtain ⟨rfl, rfl⟩ := List.cons.inj split
            obtain rfl := List.mem_singleton.mp reached
            exact ⟨values, domain⟩
        | cons first before =>
            obtain ⟨rfl, rfl⟩ := List.cons.inj split
            obtain ⟨values', domain', n, member, reached⟩ := mem_nestedLoops_cons.mp reached
            obtain rfl := Except.ok.inj (domain.symm.trans domain')
            exact ih.mp (inside n member) before g' after rfl s reached
      · intro each
        obtain ⟨values, domain⟩ := each [] g rest rfl scope (List.mem_singleton_self scope)
        refine ⟨values, domain, fun n member => ih.mpr ?_⟩
        rintro before g' after rfl s reached
        apply each (g :: before) g' after rfl
        exact mem_nestedLoops_cons.mpr ⟨values, domain, n, member, reached⟩

/-- The scopes of one loop. -/
theorem bindings_eq_ok_iff : g.bindings scope = .ok inner ↔
    Runs [g] scope ∧ inner = nestedLoops [g] scope := by
  cases domain : g.domain.valuesIn scope with
  | error e => simp [bindings, Runs, domain]
  | ok values => simp [bindings, Runs, nestedLoops, domain, List.map_eq_flatMap, eq_comm]

/-- One more loop inside of every scope so far. -/
theorem extend_eq_ok_iff : g.extend scopes = .ok inner ↔
    g.Bindable ∧ (∀ s ∈ scopes, Runs [g] s) ∧ inner = scopes.flatMap (nestedLoops [g]) := by
  have levels : ∀ blocks, List.Forall₂ (fun s block => g.bindings s = .ok block) scopes blocks ↔
      (∀ s ∈ scopes, Runs [g] s) ∧ blocks = scopes.map (nestedLoops [g]) := by
    induction scopes with
    | nil => simp
    | cons s scopes ih =>
        intro blocks
        rw [List.forall₂_cons_left_iff]
        constructor
        · rintro ⟨block, blocks, here, later, rfl⟩
          obtain ⟨runs, rfl⟩ := bindings_eq_ok_iff.mp here
          obtain ⟨each, rfl⟩ := (ih blocks).mp later
          exact ⟨List.forall_mem_cons.mpr ⟨runs, each⟩, rfl⟩
        · rintro ⟨each, rfl⟩
          obtain ⟨runs, each⟩ := List.forall_mem_cons.mp each
          exact ⟨_, _, bindings_eq_ok_iff.mpr ⟨runs, rfl⟩, (ih _).mpr ⟨each, rfl⟩, rfl⟩
  by_cases refused : g.symbol = "" ∨ g.symbol = "_"
  · rw [extend, if_pos refused]
    refine iff_of_false (fun h => nomatch h) ?_
    rintro ⟨bindable, -⟩
    exact refused.elim bindable.1 bindable.2
  · have bindable : g.Bindable := not_or.mp refused
    rw [extend, if_neg refused, bind_eq_ok_iff]
    simp only [mapM_eq_ok_iff, levels, pure_eq_ok_iff]
    constructor
    · rintro ⟨blocks, ⟨each, rfl⟩, rfl⟩
      exact ⟨bindable, each, rfl⟩
    · rintro ⟨-, each, rfl⟩
      exact ⟨_, ⟨each, rfl⟩, rfl⟩

/-- Loops run when the outermost one does and the others do in all of its scopes. -/
theorem runs_cons_iff : Runs (g :: rest) scope ↔
    Runs [g] scope ∧ ∀ s ∈ nestedLoops [g] scope, Runs rest s := by
  constructor
  · rintro ⟨values, domain, inside⟩
    refine ⟨⟨values, domain, fun _ _ => trivial⟩, ?_⟩
    rw [nestedLoops_cons domain]
    intro s reached
    obtain ⟨n, member, single⟩ := List.mem_flatMap.mp reached
    obtain rfl := List.mem_singleton.mp single
    exact inside n member
  · rintro ⟨⟨values, domain, -⟩, inside⟩
    rw [nestedLoops_cons domain] at inside
    refine ⟨values, domain, fun n member => inside _ ?_⟩
    exact List.mem_flatMap.mpr ⟨n, member, List.mem_singleton_self _⟩

/-- The loops inside run in the scopes of the outermost one, in order. -/
theorem nestedLoops_cons_eq_flatMap :
    nestedLoops (g :: rest) scope = (nestedLoops [g] scope).flatMap (nestedLoops rest) := by
  cases domain : g.domain.valuesIn scope with
  | error e => simp [nestedLoops, domain]
  | ok values => simp [nestedLoops, domain, List.flatMap_assoc]

/-- Running level by level from several scopes is running nested loops from each of them. -/
theorem foldlM_extend_eq_ok_iff :
    generators.foldlM (fun scopes g => g.extend scopes) scopes = .ok inner ↔
      (∀ g ∈ generators, g.Bindable) ∧ (∀ s ∈ scopes, Runs generators s) ∧
        inner = scopes.flatMap (nestedLoops generators) := by
  induction generators generalizing scopes with
  | nil =>
      have same : scopes.flatMap (nestedLoops []) = scopes := List.flatMap_singleton' scopes
      rw [List.foldlM_nil, pure_eq_ok_iff, same]
      refine ⟨fun done => ⟨fun _ none => absurd none List.not_mem_nil, fun _ _ => trivial, done⟩,
        fun h => h.2.2⟩
  | cons g rest ih =>
      have reached : scopes.flatMap (nestedLoops (g :: rest)) =
          (scopes.flatMap (nestedLoops [g])).flatMap (nestedLoops rest) := by
        rw [List.flatMap_assoc]
        exact congrArg (List.flatMap · scopes) (funext fun s => nestedLoops_cons_eq_flatMap)
      rw [List.foldlM_cons, bind_eq_ok_iff, reached]
      simp only [extend_eq_ok_iff, ih, List.forall_mem_cons, @runs_cons_iff _ _ g rest]
      constructor
      · rintro ⟨_, ⟨bindable, here, rfl⟩, bindables, inside, rfl⟩
        refine ⟨⟨bindable, bindables⟩, fun s member => ⟨here s member, fun s' reached => ?_⟩, rfl⟩
        exact inside s' (List.mem_flatMap.mpr ⟨s, member, reached⟩)
      · rintro ⟨⟨bindable, bindables⟩, each, rfl⟩
        refine ⟨_, ⟨bindable, fun s member => (each s member).1, rfl⟩, bindables, ?_, rfl⟩
        intro s' reached
        obtain ⟨s, member, reached⟩ := List.mem_flatMap.mp reached
        exact (each s member).2 s' reached

theorem ne_nil_of_expand (expanded : expand generators scope = .ok scopes) : generators ≠ [] := by
  rintro rfl
  cases expanded

/-- Expansion lists the scopes of nested loops, if all of them can run. -/
theorem expand_eq_ok_iff (nonempty : generators ≠ []) : expand generators scope = .ok scopes ↔
    (∀ g ∈ generators, g.Bindable) ∧ Runs generators scope ∧
      scopes = nestedLoops generators scope := by
  rw [expand, if_neg (by simpa using nonempty), foldlM_extend_eq_ok_iff]
  simp

/-- Expansion succeeds exactly when all symbols can be bound and all domains can be evaluated in the
scopes that reach them. It then lists the scopes of nested loops. Each of these binds one symbol
after another to a value of its domain, the domain being evaluated under the bindings before; where
a symbol is bound twice, the inner binding counts. -/
theorem expand_eq_nestedLoops (nonempty : generators ≠ []) (scope : Scope α) :
    ((∃ scopes, expand generators scope = .ok scopes) ↔
      (∀ g ∈ generators, g.symbol ≠ "" ∧ g.symbol ≠ "_") ∧
      ∀ before g after, generators = before ++ g :: after →
        ∀ s ∈ nestedLoops before scope, ∃ values, g.domain.valuesIn s = .ok values) ∧
    ∀ scopes, expand generators scope = .ok scopes → scopes = nestedLoops generators scope ∧
      ∀ s ∈ scopes, ∃ values, values.length = generators.length ∧
        s = scope.bindAll (generators.map symbol) values ∧
        (∀ before g after, generators = before ++ g :: after →
          ∃ members, g.domain.valuesIn (scope.bindAll (before.map symbol) values) = .ok members ∧
            ∃ n ∈ members, values[before.length]? = some n ∧
              (g.symbol ∉ after.map symbol → s.lookup? g.symbol = some n)) ∧
        ∀ x, x ∉ generators.map symbol → s.lookup? x = scope.lookup? x := by
  refine ⟨?_, fun scopes expanded => ?_⟩
  · simp only [expand_eq_ok_iff nonempty, ← and_assoc, exists_eq_right, runs_iff]
    exact Iff.rfl
  · obtain ⟨-, -, rfl⟩ := (expand_eq_ok_iff nonempty).mp expanded
    refine ⟨rfl, fun s reached => ?_⟩
    obtain ⟨values, takes, rfl⟩ := mem_nestedLoops_iff.mp reached
    refine ⟨values, takes.length_eq, rfl, ?_, fun x => Scope.lookup?_bindAll_of_notMem⟩
    rintro before g after rfl
    obtain ⟨members, domain, n, member, here⟩ := takes.exists_member
    refine ⟨members, domain, n, member, here, fun innermost => ?_⟩
    rw [List.map_append]
    exact Scope.lookup?_bindAll_append innermost (by rwa [List.length_map])

/-- The second loop starts where the first one is, and the third one hides the symbol of the first.
The symbol bound outside stays visible. -/
theorem triangle_expanded :
    let i : Generator Float := .of "i" (.values [2, 1])
    let j : Generator Float := .of "j" (.range (.symbol "i") (.const 2))
    let again : Generator Float := .of "i" (.range (.add (.symbol "i") (.symbol "k")) (.const 7))
    let outside : Scope Float := Scope.empty.bind "k" 5
    [i, j, again] ≠ [] ∧ ∃ scopes, expand [i, j, again] outside = .ok scopes ∧
      scopes = nestedLoops [i, j, again] outside ∧
      (scopes.map fun s => (["i", "j", "k"].map s.lookup?).reduceOption) =
        [[7, 2, 5], [6, 1, 5], [7, 1, 5], [6, 2, 5], [7, 2, 5]] := by
  intro i j again outside
  obtain ⟨-, lists⟩ := expand_eq_nestedLoops (List.cons_ne_nil i [j, again]) outside
  have succeeds : (expand [i, j, again] outside).isOk = true := by decide +kernel
  rcases expanded : expand [i, j, again] outside with e | scopes
  · rw [expanded] at succeeds
    cases succeeds
  · obtain ⟨same, -⟩ := lists scopes expanded
    refine ⟨List.cons_ne_nil i [j, again], scopes, rfl, same, ?_⟩
    rw [same]
    decide +kernel

end Generator
end MipModel
