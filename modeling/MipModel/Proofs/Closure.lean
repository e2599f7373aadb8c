import MipModel.Proofs.Meaning
import MipModel.Proofs.Plans

/-!
# What the gadgets of a plan are made of

The operands of a gadget that a plan asks for are made of variables that were there before, and of
variables of gadgets that the plan asks for earlier. So whenever the gadgets of a plan are installed
one after another, each finds the variables in its operands registered (`Closed.tail`).
-/

namespace MipModel

open Model Build

variable {α : Type}

@[simp] theorem Gadget.operands_map {ω υ : Type} (f : ω → υ) (g : Gadget ω α) :
    (g.map f).operands = g.operands.map f := by
  cases g <;> rfl

theorem Gadget.Related.exists_right {ω υ : Type} {R : ω → υ → Prop} {g : Gadget ω α}
    {g' : Gadget υ α} (h : g.Related R g') {x : ω} (member : x ∈ g.operands) : ∃ y, R x y := by
  cases h with
  | abs related | piecewise _ related =>
      obtain rfl := List.mem_singleton.mp member
      exact ⟨_, related⟩
  | max related | min related | and related | or related =>
      obtain ⟨y, -, related⟩ := related.exists_right member
      exact ⟨y, related⟩
  | ifThenElse first second third =>
      simp only [operands, List.mem_cons, List.not_mem_nil, or_false] at member
      obtain rfl | rfl | rfl := member
      · exact ⟨_, first⟩
      · exact ⟨_, second⟩
      · exact ⟨_, third⟩

/-- The reading of expressions that says nothing. -/
def anything : Interpretation α Unit where
  constant _ := ()
  polynomial _ _ := True
  zero := ()
  add _ _ := ()
  sub _ _ := ()
  mul _ _ := ()
  neg _ := ()
  div _ _ _ := True
  construct _ _ := True

variable [Naming α]

/-- Every gadget of a list has operands over given variables and over those of the gadgets before
it. -/
def Closed (context : String) : (String → Prop) → List (Gadget (Polynomial α) α) → Prop
  | _, [] => True
  | S, g :: gs => (∀ p ∈ g.operands, p.Over S) ∧
      Closed context (fun x => S x ∨ x = g.nameIn context) gs

/-- The given variables, and those of gadgets. -/
def Widened (context : String) (S : String → Prop) (gs : List (Gadget (Polynomial α) α))
    (x : String) : Prop :=
  S x ∨ ∃ g ∈ gs, x = g.nameIn context

section Closure

variable {context : String} {S S' : String → Prop} {gs hs : List (Gadget (Polynomial α) α)}

theorem Closed.mono (closed : Closed context S gs) (weaker : ∀ x, S x → S' x) :
    Closed context S' gs := by
  induction gs generalizing S S' with
  | nil => trivial
  | cons g gs ih =>
      exact ⟨fun p member => (closed.1 p member).mono weaker,
        ih closed.2 fun x h => h.imp_left (weaker x)⟩

theorem Widened.mono (more : ∀ g ∈ gs, g ∈ hs) (x : String) (h : Widened context S gs x) :
    Widened context S hs x :=
  h.imp_right fun ⟨g, member, same⟩ => ⟨g, more g member, same⟩

theorem Closed.append (first : Closed context S gs)
    (second : Closed context (Widened context S gs) hs) : Closed context S (gs ++ hs) := by
  induction gs generalizing S with
  | nil => exact second.mono fun x h => h.elim id fun ⟨_, empty, _⟩ => nomatch empty
  | cons g gs ih =>
      refine ⟨first.1, ih first.2 (second.mono fun x h => ?_)⟩
      obtain given | ⟨g', member, rfl⟩ := h
      · exact .inl (.inl given)
      · obtain rfl | later := List.mem_cons.mp member
        · exact .inl (.inr rfl)
        · exact .inr ⟨g', later, rfl⟩

/-- What a plan comes to is made of the given variables and those of its gadgets. -/
structure Planned.Within (context : String) (S : String → Prop)
    (x : Planned α (Polynomial α)) : Prop where
  closed : Closed context S x.gadgets
  result : x.result.Over (Widened context S x.gadgets)

theorem closed_flatMap {xs : List (Planned α (Polynomial α))}
    (h : ∀ x ∈ xs, x.Within context S) : Closed context S (xs.flatMap Planned.gadgets) := by
  induction xs with
  | nil => trivial
  | cons x xs ih =>
      obtain ⟨first, rest⟩ := List.forall_mem_cons.mp h
      exact first.closed.append ((ih rest).mono fun _ => .inl)

/-- Results that are combined without naming further variables stay within. -/
theorem Planned.Within.both {x y : Planned α (Polynomial α)} (hx : x.Within context S)
    (hy : y.Within context S) {r : Polynomial α}
    (combine : ∀ T, x.result.Over T → y.result.Over T → r.Over T) :
    Planned.Within context S ⟨r, x.gadgets ++ y.gadgets⟩ where
  closed := hx.closed.append (hy.closed.mono fun _ => .inl)
  result := combine _ (hx.result.mono (Widened.mono fun _ => List.mem_append_left _))
    (hy.result.mono (Widened.mono fun _ => List.mem_append_right _))

variable [Scalar α]

/-- A gadget over what its operands come to is made of variables before it. -/
theorem Planned.Within.construct {g : Gadget (Planned α (Polynomial α)) α}
    (h : ∀ x ∈ g.operands, x.Within context S) :
    Planned.Within context S ⟨.var ((g.map Planned.result).nameIn context),
      g.operands.flatMap Planned.gadgets ++ [g.map Planned.result]⟩ where
  closed := by
    refine (closed_flatMap h).append ⟨fun p member => ?_, trivial⟩
    rw [Gadget.operands_map] at member
    obtain ⟨x, operand, rfl⟩ := List.mem_map.mp member
    exact (h x operand).result.mono
      (Widened.mono fun g' asked => List.mem_flatMap.mpr ⟨x, operand, asked⟩)
  result := Polynomial.over_var
    (.inr ⟨_, List.mem_append_right _ (List.mem_singleton_self _), rfl⟩)

theorem simulates_within (context : String) (S : String → Prop) :
    Simulates (fun x _ => Planned.Within (α := α) context S x) (·.Over S) (fun _ => True)
      (plans context) anything where
  constant c := ⟨trivial, Polynomial.over_constant c⟩
  polynomial := by
    rintro p _ among rfl
    exact ⟨(), trivial, trivial, among.mono fun _ => .inl⟩
  zero := ⟨trivial, Polynomial.over_zero⟩
  add hx hy := hx.both hy fun _ => Polynomial.Over.add
  sub hx hy := hx.both hy fun _ => Polynomial.Over.subtract
  mul hx hy := hx.both hy fun _ => Polynomial.Over.multiply
  neg h := ⟨h.closed, h.result.negate⟩
  div := by
    rintro x y _ _ _ hx hy ⟨q, quotient, rfl⟩
    exact ⟨(), trivial, hx.both hy fun _ among _ => among.divide quotient⟩
  construct := by
    rintro g g' _ - related ⟨-, rfl⟩
    refine ⟨(), trivial, .construct fun x member => ?_⟩
    obtain ⟨_, within⟩ := related.exists_right member
    exact within

end Closure

section Models

variable [Scalar α] {m n : Model α} {s : Settings α} {e : Expr α} {scope : Scope α}

/-- A plan for an expression is made of given variables, among them all registered ones, and of
those of its gadgets. -/
theorem Model.Consistent.within_of_denotes {S : String → Prop} (consistent : m.Consistent)
    (registered : ∀ x, m.vars.contains x = true → S x)
    (embeds : e.Every (Expr.Embeds fun q => q.Over S)) {context : String}
    {x : Planned α (Polynomial α)} (planned : e.Denotes (plans context) m.families scope x) :
    x.Within context S := by
  have supplies : m.families.Supplies fun p => p.Over S :=
    (supplies_over consistent.members).imp fun _ h => h.2.mono registered
  have uses : e.Every (Expr.Uses fun _ => True) := Expr.every_of_forall (fun _ _ _ => trivial) e
  obtain ⟨_, -, within⟩ := (simulates_within context _).denotes supplies embeds uses planned
  exact within

/-- The gadgets of a plan are made of registered variables and of variables of gadgets before. -/
theorem Model.Consistent.closed_of_denotes (consistent : m.Consistent)
    (embeds : e.Every (Expr.Embeds fun q => q.Over fun x => m.vars.contains x = true))
    {context : String} {x : Planned α (Polynomial α)}
    (planned : e.Denotes (plans context) m.families scope x) :
    Closed context (fun x => m.vars.contains x = true) x.gadgets :=
  (consistent.within_of_denotes (fun _ => id) embeds planned).closed

/-- The variable that the memo records for a gadget is registered. -/
theorem Model.Consistent.contains_of_recorded (consistent : m.Consistent) {name : String}
    {p : Polynomial α} (found : m.memo.find? name = some p) : m.vars.contains name = true := by
  obtain ⟨-, g, context, -, -, vars, -⟩ := consistent.recorded _ (Registry.mem_of_find? found)
  obtain ⟨v, -, stored⟩ := vars (name, g.kind) List.mem_cons_self
  exact Registry.contains_of_mem stored

/-- Once the first gadget is installed, the others need no more than the given variables and the
registered ones. -/
theorem Closed.tail_of {S S' : String → Prop} {g : Gadget (Polynomial α) α}
    {gs : List (Gadget (Polynomial α) α)} (closed : Closed s.context S (g :: gs))
    (consistent : m.Consistent) (shaped : g.WellShaped) {p : Polynomial α}
    (done : (install s g).runOn m = (.ok p, n)) (given : ∀ x, S x → S' x)
    (registered : ∀ x, n.vars.contains x = true → S' x) : Closed s.context S' gs := by
  obtain ⟨consistent', -⟩ := (keeps_install s shaped).of_run done consistent
  refine closed.2.mono fun x h => ?_
  obtain before | rfl := h
  · exact given x before
  · exact registered _
      (consistent'.contains_of_recorded (install_ok consistent shaped done).1.2.2)

/-- Once the first gadget is installed, the others need nothing but registered variables. -/
theorem Closed.tail {g : Gadget (Polynomial α) α} {gs : List (Gadget (Polynomial α) α)}
    (closed : Closed s.context (fun x => m.vars.contains x = true) (g :: gs))
    (consistent : m.Consistent) (shaped : g.WellShaped) {p : Polynomial α}
    (done : (install s g).runOn m = (.ok p, n)) :
    Closed s.context (fun x => n.vars.contains x = true) gs := by
  obtain ⟨-, grows⟩ := (keeps_install s shaped).of_run done consistent
  exact closed.tail_of consistent shaped done
    (fun x => Registry.contains_of_prefix grows.vars) fun _ => id

end Models

end MipModel
