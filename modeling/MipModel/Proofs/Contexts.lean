import MipModel.Proofs.NestedLoops
import MipModel.Proofs.RaisedErrors

/-!
# The bindings of an error

An error that is raised below a sum is passed on by every sum around the place where it was raised.
What such a sum was doing (`Stage`) gives a context, which it offers to the error: the bindings
under which it was at work. Offered one after another, the innermost first, contexts leave an error
with the first of them that is not empty (`Error.inInnermost`).

The expansion of generators fails at a single stage. It refuses a symbol, or comes to a first scope
in which the domain of a loop cannot be evaluated (`Generator.Fails`).
-/

namespace MipModel

open Build

variable {α : Type}

section Bindings

namespace Error

/-- An error with the first of some contexts that is not empty. -/
def inInnermost (e : Error α) (contexts : List String) : Error α :=
  match contexts.find? fun c => !c.isEmpty with
  | some c => inContext c e
  | none => e

variable {e : Error α} {contexts : List String}

/-- Either an error takes one of the contexts, and then no further ones matter, or it takes none of
them, and then only further ones do. -/
theorem inInnermost_cases (e : Error α) (contexts : List String) :
    (∃ c, e.inInnermost contexts = inContext c e ∧
      ∀ further, e.inInnermost (contexts ++ further) = inContext c e) ∨
    (e.inInnermost contexts = e ∧
      ∀ further, e.inInnermost (contexts ++ further) = e.inInnermost further) := by
  cases taken : contexts.find? fun c => !c.isEmpty with
  | some c =>
      refine .inl ⟨c, ?_, fun further => ?_⟩
      · rw [inInnermost, taken]
      · rw [inInnermost, List.find?_append, taken, Option.some_or]
  | none =>
      refine .inr ⟨?_, fun further => ?_⟩
      · rw [inInnermost, taken]
      · rw [inInnermost, List.find?_append, taken, Option.none_or, inInnermost]

/-- A context that is offered later is one further out. -/
theorem IsBare.withContext_inInnermost (bare : e.IsBare) (contexts : List String) (c : String) :
    (e.inInnermost contexts).withContext c = e.inInnermost (contexts ++ [c]) := by
  obtain ⟨inner, taken, also⟩ | ⟨none, also⟩ := e.inInnermost_cases contexts
  · rw [taken, also]
    rfl
  · rw [none, also, withContext_of_layers_eq_zero bare.layers_eq_zero]
    cases empty : c.isEmpty <;> simp [inInnermost, empty]

theorem IsBare.root_inInnermost (bare : e.IsBare) (contexts : List String) :
    (e.inInnermost contexts).root = e := by
  have root := root_of_layers_eq_zero bare.layers_eq_zero
  obtain ⟨inner, taken, -⟩ | ⟨none, -⟩ := e.inInnermost_cases contexts
  · rw [taken]
    exact root
  · rw [none, root]

theorem IsBare.layers_inInnermost_le (bare : e.IsBare) (contexts : List String) :
    (e.inInnermost contexts).layers ≤ 1 := by
  have bare := bare.layers_eq_zero
  obtain ⟨inner, taken, -⟩ | ⟨none, -⟩ := e.inInnermost_cases contexts
  · rw [taken, layers, bare]
  · rw [none, bare]
    exact Nat.zero_le 1

/-- A context that is not empty is attached to the errors that have none. -/
theorem withContext_of_nonempty (e : Error α) {c : String} (nonempty : c.isEmpty = false) :
    e.withContext c = if e.layers = 0 then inContext c e else e := by
  cases bare : e.layers with
  | zero =>
      rw [withContext_of_layers_eq_zero bare, nonempty]
      rfl
  | succ n =>
      cases e with
      | inContext c' cause => rfl
      | _ => cases bare

/-- When the last one offered is not empty there is a context, and it is the last one if no other
has been taken. -/
theorem IsBare.exists_context (bare : e.IsBare) (contexts : List String) {c : String}
    (nonempty : c.isEmpty = false) :
    ∃ context, e.inInnermost (contexts ++ [c]) = inContext context e ∧
      (e.inInnermost contexts = e → context = c) := by
  obtain ⟨inner, taken, also⟩ | ⟨-, also⟩ := e.inInnermost_cases contexts
  · refine ⟨inner, also [c], fun same => ?_⟩
    rw [taken] at same
    rw [← same] at bare
    cases bare
  · refine ⟨c, ?_, fun _ => rfl⟩
    rw [also]
    simp [inInnermost, nonempty]

end Error

namespace Scope

/-- The bindings in effect: every bound symbol once, with its innermost value, the outermost binding
first. -/
structure Shows (s : Scope α) (shown : List (String × Int)) : Prop where
  distinct : (shown.map Prod.fst).Nodup
  values (x : String) (v : Int) : (x, v) ∈ shown ↔ s.lookup? x = some v
  ordered : shown.Sublist s.bindings.reverse

theorem visible_sublist (bindings : List (String × Int)) : (visible bindings).Sublist bindings := by
  induction bindings with
  | nil => exact .slnil
  | cons b outer ih => exact (List.filter_sublist.trans ih).cons_cons b

theorem nodup_visible (bindings : List (String × Int)) :
    ((visible bindings).map Prod.fst).Nodup := by
  induction bindings with
  | nil => exact .nil
  | cons b outer ih =>
      refine List.nodup_cons.mpr ⟨fun again => ?_, (List.filter_sublist.map _).nodup ih⟩
      obtain ⟨c, kept, same⟩ := List.mem_map.mp again
      have different := (List.mem_filter.mp kept).2
      simp [same] at different

theorem mem_visible {bindings : List (String × Int)} {x : String} {v : Int} :
    (x, v) ∈ visible bindings ↔ (bindings.find? fun b => b.1 = x).map Prod.snd = some v := by
  induction bindings with
  | nil => simp [visible]
  | cons b outer ih =>
      obtain ⟨y, w⟩ := b
      rw [visible, List.mem_cons, List.mem_filter, ih]
      by_cases same : y = x
      · subst same
        simp [eq_comm]
      · have different : ¬x = y := fun h => same h.symm
        simp [same, different]

/-- A scope is described by the bindings in effect. -/
theorem shows_visible (s : Scope α) : s.Shows (visible s.bindings).reverse where
  distinct := by
    rw [List.map_reverse, List.nodup_reverse]
    exact nodup_visible s.bindings
  values x v := by
    rw [List.mem_reverse]
    exact mem_visible
  ordered := (visible_sublist s.bindings).reverse

/-- A scope in which a symbol is bound has something to tell. -/
theorem isEmpty_text_of_bound {s : Scope α} {x : String} (bound : (s.lookup? x).isSome = true) :
    s.text.isEmpty = false := by
  obtain ⟨v, found⟩ := Option.isSome_iff_exists.mp bound
  have shown := (s.shows_visible.values x v).mpr found
  unfold text
  generalize (visible s.bindings).reverse = bindings at shown
  cases bindings with
  | nil => cases shown
  | cons b rest => cases rest <;> simp [String.intercalate_cons_cons]

end Scope

/-- What a sum was doing when an error came up in it. -/
inductive Stage (α : Type) where
  /-- It refused its generators. -/
  | generators
  /-- It evaluated the domain of a loop in the scope around the loop. -/
  | domain (outer : Scope α)
  /-- It computed a summand. -/
  | summand (body : Expr α) (inner : Scope α)

variable [Scalar α]

/-- The bindings that a sum offers to an error. -/
def Stage.context : Stage α → String
  | generators => ""
  | domain outer => outer.text
  | summand body inner => body.summandText inner

/-- A summand always has something to tell. -/
@[simp] theorem Expr.isEmpty_summandText (body : Expr α) (inner : Scope α) :
    (body.summandText inner).isEmpty = false := by
  simp [summandText]

end Bindings

namespace Generator

variable [Scalar α]

/-- `Fails generators scope stage r`: the expansion of generators in a scope comes up with an error
for the first time, the error being `r`. -/
inductive Fails (generators : List (Generator α)) (scope : Scope α) : Stage α → Error α → Prop where
  /-- There is nothing to expand. -/
  | none : generators = [] →
      Fails generators scope .generators (.invalidGenerator "sum requires at least one generator")
  /-- The loops before can run, and then there is a symbol that cannot be bound. -/
  | symbol {before after : List (Generator α)} {g : Generator α} :
      generators = before ++ g :: after → (∀ g' ∈ before, g'.Bindable) → Runs before scope →
      ¬g.Bindable →
      Fails generators scope .generators
        (.invalidGenerator ("cannot bind symbol '" ++ g.symbol ++ "'"))
  /-- The loops before can run, and there is a first scope among theirs in which the domain of the
  next loop cannot be evaluated. -/
  | domain {before after : List (Generator α)} {g : Generator α} {first rest : List (Scope α)}
      {outer : Scope α} {r : Error α} :
      generators = before ++ g :: after → (∀ g' ∈ before, g'.Bindable) → Runs before scope →
      g.Bindable → nestedLoops before scope = first ++ outer :: rest →
      (∀ s ∈ first, Runs [g] s) → g.domain.valuesIn outer = .error r →
      Fails generators scope (.domain outer) r

variable {g : Generator α} {generators : List (Generator α)} {scope outer : Scope α}
  {scopes : List (Scope α)} {stage : Stage α} {r err : Error α}

theorem Fails.isBare (h : Fails generators scope stage r) : r.IsBare := by
  cases h with
  | none _ | symbol _ _ _ _ => trivial
  | domain _ _ _ _ _ _ failed => exact (failsWith_valuesIn _ r failed).aboutReference.isBare

theorem bindings_eq_error_iff : g.bindings outer = .error err ↔
    ∃ r, g.domain.valuesIn outer = .error r ∧ err = r.withContext outer.text := by
  unfold bindings
  cases g.domain.valuesIn outer with
  | ok values => simp
  | error r => simp [eq_comm]

theorem exists_bindings_iff : (∃ inner, g.bindings outer = .ok inner) ↔ Runs [g] outer := by
  simp only [bindings_eq_ok_iff]
  exact ⟨fun ⟨_, runs, _⟩ => runs, fun runs => ⟨_, runs, rfl⟩⟩

/-- One more loop fails when its symbol cannot be bound, or else in the first scope so far in which
its domain cannot be evaluated. -/
theorem extend_eq_error_iff : g.extend scopes = .error err ↔
    ¬g.Bindable ∧ err = .invalidGenerator ("cannot bind symbol '" ++ g.symbol ++ "'") ∨
    g.Bindable ∧ ∃ first outer rest r, scopes = first ++ outer :: rest ∧
      (∀ s ∈ first, Runs [g] s) ∧ g.domain.valuesIn outer = .error r ∧
      err = r.withContext outer.text := by
  by_cases refused : g.symbol = "" ∨ g.symbol = "_"
  · have unbindable : ¬g.Bindable := fun bindable => refused.elim bindable.1 bindable.2
    rw [extend, if_pos refused]
    simp [unbindable, eq_comm]
  · have bindable : g.Bindable := not_or.mp refused
    rw [extend, if_neg refused, bind_eq_error_iff]
    simp only [mapM_eq_error_iff, exists_bindings_iff, bindings_eq_error_iff, bindable, true_and,
      not_true_eq_false, false_and, false_or]
    constructor
    · rintro (⟨first, outer, rest, split, run, r, failed, rfl⟩ | ⟨blocks, -, done⟩)
      · exact ⟨first, outer, rest, r, split, run, failed, rfl⟩
      · cases done
    · rintro ⟨first, outer, rest, r, split, run, failed, rfl⟩
      exact .inl ⟨first, outer, rest, split, run, r, failed, rfl⟩

/-- The errors of expansion, with the bindings of the scope in which a domain could not be
evaluated. -/
theorem expand_eq_error_iff : expand generators scope = .error err ↔
    ∃ stage r, Fails generators scope stage r ∧ err = r.inInnermost [stage.context] := by
  have offered (stage : Stage α) {r : Error α} (bare : r.IsBare) :
      r.withContext stage.context = r.inInnermost [stage.context] :=
    bare.withContext_inInnermost [] stage.context
  by_cases empty : generators = []
  · subst empty
    constructor
    · rintro ⟨⟩
      exact ⟨.generators, _, .none rfl, rfl⟩
    · rintro ⟨stage, r, failed, rfl⟩
      cases failed with
      | none _ => rfl
      | symbol split _ _ _ | domain split _ _ _ _ _ _ =>
          cases (List.append_eq_nil_iff.mp split.symm).2
  have passed {before : List (Generator α)} {scopes : List (Scope α)} :
      before.foldlM (fun scopes g => g.extend scopes) [scope] = .ok scopes ↔
        (∀ g ∈ before, g.Bindable) ∧ Runs before scope ∧ scopes = nestedLoops before scope := by
    simp [foldlM_extend_eq_ok_iff]
  rw [expand, if_neg (by simpa using empty), foldlM_eq_error_iff]
  simp only [passed, extend_eq_error_iff]
  constructor
  · rintro ⟨before, g, after, _, split, ⟨bindable, run, rfl⟩, ⟨refused, rfl⟩ |
      ⟨bound, first, outer, rest, r, reached, earlier, failed, rfl⟩⟩
    · exact ⟨.generators, _, .symbol split bindable run refused, rfl⟩
    · have fails : Fails generators scope (.domain outer) r :=
        .domain split bindable run bound reached earlier failed
      exact ⟨.domain outer, r, fails, offered (.domain outer) fails.isBare⟩
  · rintro ⟨stage, r, failed, rfl⟩
    rw [← offered stage failed.isBare]
    cases failed with
    | none none => exact absurd none empty
    | @symbol before after g split bindable run refused =>
        exact ⟨before, g, after, _, split, ⟨bindable, run, rfl⟩, .inl ⟨refused, rfl⟩⟩
    | @domain before after g first rest outer r split bindable run bound reached earlier failed =>
        exact ⟨before, g, after, _, split, ⟨bindable, run, rfl⟩,
          .inr ⟨bound, first, outer, rest, r, reached, earlier, failed, rfl⟩⟩

end Generator
end MipModel
