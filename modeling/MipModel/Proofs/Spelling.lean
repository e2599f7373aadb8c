import Mathlib
import MipModel.Linearization.Construct
import MipModel.Scalar.Rational

/-!
# Names that spell fingerprints out

A naming scheme for exact models that condenses nothing: the name of an auxiliary is its
fingerprint in writing. Every part is written so that its end can be told from what follows, and so
different fingerprints have different names (`name_injective`). This is what arguments about
encodings assume of a naming scheme.
-/

namespace MipModel.Spelling

/-- What is written can be read back from any text that starts with it. -/
def Readable {β : Type} (spell : β → List Char) : Prop :=
  ∀ a b rest rest', spell a ++ rest = spell b ++ rest' → a = b ∧ rest = rest'

section Parts

variable {β γ : Type} {spell : β → List Char} {spell' : γ → List Char}

theorem Readable.map (h : Readable spell) {f : γ → β} (injective : Function.Injective f) :
    Readable fun c => spell (f c) := by
  intro a b rest rest' same
  obtain ⟨equal, rests⟩ := h _ _ rest rest' same
  exact ⟨injective equal, rests⟩

theorem Readable.pair (h : Readable spell) (h' : Readable spell') :
    Readable fun p : β × γ => spell p.1 ++ spell' p.2 := by
  rintro ⟨a, c⟩ ⟨b, d⟩ rest rest' same
  simp only [List.append_assoc] at same
  obtain ⟨rfl, remaining⟩ := h a b _ _ same
  obtain ⟨rfl, rests⟩ := h' c d rest rest' remaining
  exact ⟨rfl, rests⟩

/-- A list: every member after a comma, and a full stop at the end. -/
def list (spell : β → List Char) : List β → List Char
  | [] => ['.']
  | b :: bs => ',' :: (spell b ++ list spell bs)

theorem Readable.list (h : Readable spell) : Readable (list spell) := by
  intro as
  induction as with
  | nil =>
      intro bs rest rest' same
      cases bs with
      | nil => exact ⟨rfl, List.tail_eq_of_cons_eq same⟩
      | cons b bs => exact absurd (List.head_eq_of_cons_eq same) (by decide)
  | cons a as ih =>
      intro bs rest rest' same
      cases bs with
      | nil => exact absurd (List.head_eq_of_cons_eq same) (by decide)
      | cons b bs =>
          simp only [Spelling.list, List.cons_append, List.append_assoc, List.cons.injEq,
            true_and] at same
          obtain ⟨rfl, remaining⟩ := h a b _ _ same
          obtain ⟨rfl, rests⟩ := ih bs rest rest' remaining
          exact ⟨rfl, rests⟩

end Parts

/-- A natural number in strokes. -/
def nat (n : Nat) : List Char := list (fun _ : Unit => []) (List.replicate n ())

theorem readable_nat : Readable nat := by
  have stroke : Readable fun _ : Unit => ([] : List Char) := fun _ _ _ _ same => ⟨rfl, same⟩
  refine stroke.list.map (f := fun n => List.replicate n ()) fun m n same => ?_
  simpa using congrArg List.length same

/-- A rational: its sign, its numerator and its denominator. -/
def number (x : Rat) : List Char :=
  nat (if x.num < 0 then 1 else 0) ++ (nat x.num.natAbs ++ nat x.den)

theorem readable_number : Readable number := by
  have triple := readable_nat.pair (readable_nat.pair readable_nat)
  refine triple.map (f := fun x : Rat => (if x.num < 0 then 1 else 0, x.num.natAbs, x.den)) ?_
  intro x y same
  simp only [Prod.mk.injEq] at same
  obtain ⟨signs, magnitudes, denominators⟩ := same
  refine Rat.ext ?_ denominators
  split at signs <;> split at signs <;> omega

def text (s : String) : List Char := list (fun c => [c]) s.toList

theorem readable_text : Readable text := by
  refine Readable.map (Readable.list fun a b rest rest' same => ?_) fun _ _ => String.toList_inj.mp
  exact List.cons.inj same

def polynomial (p : Polynomial Rat) : List Char :=
  list (fun t => list text t.1.names ++ number t.2) p.toList

theorem readable_polynomial : Readable polynomial := by
  have term := (readable_text.list.map (f := Monomial.names) fun a b => by
    cases a
    cases b
    exact congrArg Monomial.mk).pair readable_number
  refine Readable.map term.list (f := Polynomial.toList) fun p q same => ?_
  obtain ⟨⟨entries⟩⟩ := p
  obtain ⟨⟨entries'⟩⟩ := q
  change entries = entries' at same
  rw [same]

def fingerprint (f : Fingerprint Rat) : List Char :=
  text f.construct.name ++
    (text f.context ++ (list polynomial f.operands ++ list number f.parameters))

theorem readable_fingerprint : Readable fingerprint := by
  have parts := readable_text.pair
    (readable_text.pair (readable_polynomial.list.pair readable_number.list))
  refine parts.map (f := fun f : Fingerprint Rat =>
    (f.construct.name, f.context, f.operands, f.parameters)) ?_
  rintro ⟨construct, context, operands, parameters⟩ ⟨construct', _, _, _⟩ same
  simp only [Prod.mk.injEq] at same
  obtain ⟨names, rfl, rfl, rfl⟩ := same
  cases construct <;> cases construct' <;> first | rfl | exact absurd names (by decide)

def name (f : Fingerprint Rat) : String := String.ofList (fingerprint f)

instance instNaming : Naming Rat := ⟨name⟩

/-- Different fingerprints have different names. -/
theorem name_injective : Function.Injective (Naming.auxiliary (α := Rat)) := by
  intro f g same
  have spelled : fingerprint f = fingerprint g := String.ofList_injective same
  exact (readable_fingerprint f g [] [] (congrArg (· ++ []) spelled)).1

end MipModel.Spelling
