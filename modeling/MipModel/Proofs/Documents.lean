import Mathlib
import MipModel.Lp.Text
import MipModel.Proofs.Numerals

/-!
# Reading documents

The text of a document can be read again. Its lines are words with single blanks between them; the
first word of a line tells headings, comments and contents apart, and the words of a line tell what
it stands for. Only the bounds of a variable lose something: a missing lower bound beside an upper
one is written as an infinite one (`closed_eq_of_text`).

This holds of documents whose names have no blanks in them, whose numbers are numbers, and whose
empty sums are padded.
-/

namespace MipModel.Lp

open Binary64

section Bodies

variable {factor : Float} {k : Nat}

def linearWords (t : String × Float) : List String := [Scalar.signedText t.2, t.1]

def quadraticWords (factor : Float) (t : String × String × Float) : List String :=
  Scalar.signedText (t.2.2 * factor) ::
    if t.1 = t.2.1 then [t.1, "^", "2"] else [t.1, "*", t.2.1]

def bracketWords (factor : Float) (closing : List String)
    (quadratic : List (String × String × Float)) : List String :=
  if quadratic.isEmpty then []
  else ["+", "["] ++ quadratic.flatMap (quadraticWords factor) ++ closing

def Body.words (factor : Float) (closing : List String) : Body Float → List String
  | .terms linear quadratic =>
    linear.flatMap linearWords ++ bracketWords factor closing quadratic
  | .zero name => ["0", name]

structure LinearLegible (t : String × Float) : Prop where
  name : Solid t.1
  number : t.2.isNaN = false

/-- A quadratic term that can be read: the factor does not make its coefficient overflow. -/
structure QuadraticLegible (factor : Float) (t : String × String × Float) : Prop where
  left : Solid t.1
  right : Solid t.2.1
  number : t.2.2.isNaN = false
  fits : t.2.2.isFinite = true → (t.2.2 * factor).isFinite = true

def Body.Legible (factor : Float) : Body Float → Prop
  | .terms linear quadratic =>
    (linear ≠ [] ∨ quadratic ≠ []) ∧ (∀ t ∈ linear, LinearLegible t) ∧
      ∀ t ∈ quadratic, QuadraticLegible factor t
  | .zero name => Solid name

theorem spells_linearText {t : String × Float} (h : LinearLegible t) :
    Spells (linearText t) (linearWords t) :=
  (solid_signedText _).spells.append h.name.spells

variable (power : IsPower factor k) (small : k ≤ 1)
include power small

theorem QuadraticLegible.number_mul {t : String × String × Float} (h : QuadraticLegible factor t) :
    (t.2.2 * factor).isNaN = false :=
  isNaN_mul power small h.number h.fits

omit power small in
theorem spells_quadraticText {t : String × String × Float} (h : QuadraticLegible factor t) :
    Spells (quadraticText factor t) (quadraticWords factor t) := by
  have number := (solid_signedText (t.2.2 * factor)).spells
  obtain ⟨a, b, c⟩ := t
  have square : a ++ " ^ 2" = a ++ " " ++ "^" ++ " " ++ "2" := String.toList_inj.mp (by simp)
  have mixed : a ++ " * " ++ b = a ++ " " ++ "*" ++ " " ++ b := String.toList_inj.mp (by simp)
  have names : Spells (if a = b then a ++ " ^ 2" else a ++ " * " ++ b)
      (if a = b then [a, "^", "2"] else [a, "*", b]) := by
    split
    · have power : Spells "^" ["^"] := Solid.spells (by simp [Solid])
      have two : Spells "2" ["2"] := Solid.spells (by simp [Solid])
      rw [square]
      exact (h.left.spells.append power).append two
    · have times : Spells "*" ["*"] := Solid.spells (by simp [Solid])
      rw [mixed]
      exact (h.left.spells.append times).append h.right.spells
  exact number.append names

omit power small in
/-- The words of a body. A bracket is closed after a blank. -/
theorem Body.spells_text {body : Body Float} {close : String} {closing : List String}
    (h : body.Legible factor) (closed : Spells close closing) :
    Spells (body.text factor (" " ++ close)) (body.words factor closing) := by
  cases body with
  | zero name =>
      have zero : Spells "0" ["0"] := Solid.spells (by simp [Solid])
      have text : "0 " ++ name = "0" ++ " " ++ name := String.toList_inj.mp (by simp)
      show Spells ("0 " ++ name) (["0"] ++ [name])
      rw [text]
      exact zero.append (Solid.spells h)
  | terms linear quadratic =>
      obtain ⟨nonempty, first, second⟩ := h
      have linears : List.Forall₂ Spells (linear.map linearText) (linear.map linearWords) := by
        rw [List.forall₂_map_left_iff, List.forall₂_map_right_iff, List.forall₂_same]
        exact fun t member => spells_linearText (first t member)
      have quadratics : quadratic ≠ [] →
          Spells (" ".intercalate (quadratic.map (quadraticText factor)))
            (quadratic.flatMap (quadraticWords factor)) := by
        intro nonempty
        rw [List.flatMap_def]
        refine Spells.intercalate (by simpa using nonempty) ?_
        rw [List.forall₂_map_left_iff, List.forall₂_map_right_iff, List.forall₂_same]
        exact fun t member => spells_quadraticText (second t member)
      have opening : Spells "+ [" ["+", "["] := ⟨by simp, by decide +kernel⟩
      have brackets : List.Forall₂ Spells (bracketText factor (" " ++ close) quadratic)
          (if quadratic.isEmpty then [] else [bracketWords factor closing quadratic]) := by
        unfold bracketText bracketWords
        split
        · exact .nil
        next some =>
          have text (inner : String) : "+ [ " ++ inner ++ (" " ++ close) =
              "+ [" ++ " " ++ inner ++ " " ++ close := String.toList_inj.mp (by simp)
          rw [text]
          refine .cons ?_ .nil
          exact (opening.append (quadratics (by simpa using some))).append closed
      have some : linear.map linearText ++ bracketText factor (" " ++ close) quadratic ≠ [] := by
        unfold bracketText
        cases linear <;> cases quadratic <;> simp at nonempty ⊢
      have flat : (Body.terms linear quadratic).words factor closing =
          (linear.map linearWords ++ if quadratic.isEmpty then []
            else [bracketWords factor closing quadratic]).flatten := by
        show linear.flatMap linearWords ++ bracketWords factor closing quadratic = _
        rw [List.flatten_append, ← List.flatMap_def]
        congr 1
        unfold bracketWords
        split <;> simp
      rw [flat]
      exact Spells.intercalate some (List.rel_append linears brackets)

theorem quadraticWords_injective {t t' : String × String × Float}
    (h : QuadraticLegible factor t) (h' : QuadraticLegible factor t') {rest rest' : List String}
    (same : quadraticWords factor t ++ rest = quadraticWords factor t' ++ rest') :
    t = t' ∧ rest = rest' := by
  have numbers : t.2.2 * factor = t'.2.2 * factor → t.2.2 = t'.2.2 :=
    mul_injective power small h.number h'.number h.fits h'.fits
  have forms := signedText_injective (h.number_mul power small) (h'.number_mul power small)
  obtain ⟨a, b, c⟩ := t
  obtain ⟨a', b', c'⟩ := t'
  unfold quadraticWords at same
  dsimp only at same numbers forms
  have power : "^" ≠ "*" := by decide
  split at same <;> split at same <;>
    simp only [List.cons_append, List.nil_append, List.cons.injEq, true_and] at same
  next square square' =>
    obtain ⟨number, rfl, rfl⟩ := same
    rw [← square, ← square', numbers (forms number)]
    exact ⟨rfl, rfl⟩
  next => exact absurd same.2.2.1 power
  next => exact absurd same.2.2.1.symm power
  next =>
    obtain ⟨number, rfl, rfl, rfl⟩ := same
    rw [numbers (forms number)]
    exact ⟨rfl, rfl⟩

/-- The brackets are closed by a word that is not a number. -/
theorem bracketWords_injective {closing : List String} {quadratic quadratic' : List _}
    (closed : closing.head? = some "]") (h : ∀ t ∈ quadratic, QuadraticLegible factor t)
    (h' : ∀ t ∈ quadratic', QuadraticLegible factor t)
    (same : bracketWords factor closing quadratic = bracketWords factor closing quadratic') :
    quadratic = quadratic' := by
  obtain ⟨ending, rfl⟩ : ∃ ending, closing = "]" :: ending := List.head?_eq_some_iff.mp closed
  have stop {t : String × String × Float} (h : QuadraticLegible factor t) (r : List String) :
      "]" :: ending ≠ quadraticWords factor t ++ r := by
    intro same
    have first := List.head_eq_of_cons_eq same
    exact signedText_ne (h.number_mul power small) (by simp) first.symm
  unfold bracketWords at same
  cases quadratic <;> cases quadratic'
  case nil.nil => rfl
  case nil.cons | cons.nil => simp at same
  case cons.cons =>
    simp only [List.isEmpty_cons, Bool.false_eq_true, if_false, List.append_assoc] at same
    refine (flatMap_injective (fun t member t' member' r r' => ?_) (fun t member => ?_)
      (fun t member => ?_) (List.append_cancel_left same)).1
    · exact quadraticWords_injective power small (h t member) (h' t' member')
    · exact stop (h' t member)
    · exact stop (h t member)

omit power small in
theorem linearWords_injective {t t' : String × Float} (h : LinearLegible t) (h' : LinearLegible t')
    {rest rest' : List String} (same : linearWords t ++ rest = linearWords t' ++ rest') :
    t = t' ∧ rest = rest' := by
  obtain ⟨name, number⟩ := t
  obtain ⟨name', number'⟩ := t'
  simp only [linearWords, List.cons_append, List.nil_append, List.cons.injEq] at same
  obtain ⟨numbers, rfl, rfl⟩ := same
  have same : number = number' := signedText_injective h.number h'.number numbers
  rw [same]
  exact ⟨rfl, rfl⟩

omit power small in
/-- The brackets start with a word that is not a number. -/
theorem bracketWords_ne {closing : List String} {quadratic : List _} {t : String × Float}
    (h : LinearLegible t) (rest : List String) :
    bracketWords factor closing quadratic ≠ linearWords t ++ rest := by
  unfold bracketWords
  split
  · simp [linearWords]
  · intro same
    exact signedText_ne h.number (by simp) (List.head_eq_of_cons_eq same).symm

/-- A body is told by its words. -/
theorem Body.words_injective {closing : List String} {body body' : Body Float}
    (closed : closing.head? = some "]") (h : body.Legible factor) (h' : body'.Legible factor)
    (same : body.words factor closing = body'.words factor closing) : body = body' := by
  have padded {linear quadratic name}
      (h : (terms linear quadratic : Body Float).Legible factor) :
      (terms linear quadratic).words factor closing ≠ (zero name).words factor closing := by
    intro same
    obtain ⟨nonempty, first, -⟩ := h
    cases linear with
    | cons t linear =>
        have number := first t List.mem_cons_self
        exact signedText_ne number.number (by simp) (List.head_eq_of_cons_eq same)
    | nil =>
        cases quadratic with
        | cons t quadratic =>
            exact absurd (List.head_eq_of_cons_eq same) (by decide)
        | nil => simp at nonempty
  cases body with
  | zero name =>
      cases body' with
      | zero name' =>
          simp only [words, List.cons.injEq, and_true, true_and] at same
          rw [same]
      | terms linear' quadratic' => exact absurd same.symm (padded h')
  | terms linear quadratic =>
      cases body' with
      | zero name' => exact absurd same (padded h)
      | terms linear' quadratic' =>
          obtain ⟨-, first, second⟩ := h
          obtain ⟨-, first', second'⟩ := h'
          obtain ⟨rfl, brackets⟩ := flatMap_injective
            (fun t member t' member' _ _ => linearWords_injective (first t member)
              (first' t' member'))
            (fun t member => bracketWords_ne (first' t member))
            (fun t member => bracketWords_ne (first t member)) same
          rw [bracketWords_injective power small closed second second' brackets]

end Bodies

section Lines

theorem spells_objectiveText {body : Body Float} (h : body.Legible 2) :
    Spells (" obj: " ++ objectiveText body) (["", "obj:"] ++ body.words 2 ["]", "/", "2"]) := by
  have blank : " obj: " ++ objectiveText body = " obj:" ++ " " ++ body.text 2 (" " ++ "] / 2") :=
    congrArg (· ++ objectiveText body) (by decide +kernel : " obj: " = " obj:" ++ " ")
  have opening : Spells " obj:" ["", "obj:"] := ⟨by simp, by decide +kernel⟩
  have closing : Spells "] / 2" ["]", "/", "2"] := ⟨by simp, by decide +kernel⟩
  rw [blank]
  exact opening.append (body.spells_text h closing)

/-- A row that can be read; relations are written without strictness. -/
structure Row.Legible (r : Row Float) : Prop where
  id : Solid r.id
  body : r.body.Legible 1
  relation : r.relation.relaxed = r.relation
  rhs : r.rhs.isNaN = false

def Row.words (r : Row Float) : List String :=
  ["", r.id ++ ":"] ++ r.body.words 1 ["]"] ++ [relationText r.relation, Scalar.signedText r.rhs]

theorem Row.spells_text {r : Row Float} (h : r.Legible) : Spells r.text r.words := by
  have blanks : r.text = "" ++ " " ++ (r.id ++ ":") ++ " " ++ r.body.text 1 (" " ++ "]") ++ " " ++
      (relationText r.relation ++ " " ++ Scalar.signedText r.rhs) := by
    show " " ++ r.id ++ ": " ++ r.body.text 1 " ]" ++ " " ++ relationText r.relation ++ " " ++ _ = _
    have close : " ]" = " " ++ "]" := by decide +kernel
    rw [close]
    exact String.toList_inj.mp (by simp)
  have start : Spells "" [""] := Solid.spells (by simp [Solid])
  have id : Spells (r.id ++ ":") [r.id ++ ":"] := (h.id.append (by simp [Solid])).spells
  have closing : Spells "]" ["]"] := Solid.spells (by simp [Solid])
  have relation : Solid (relationText r.relation) := by
    cases r.relation <;> simp [relationText, Solid]
  rw [blanks]
  have body := r.body.spells_text h.body closing
  exact ((start.append id).append body).append
    (relation.spells.append (solid_signedText _).spells)

theorem relationText_injective {c c' : Comparison} (h : c.relaxed = c) (h' : c'.relaxed = c')
    (same : relationText c = relationText c') : c = c' := by
  revert h h' same
  cases c <;> cases c' <;> simp [Comparison.relaxed, relationText]

/-- A row is told by its words. -/
theorem Row.eq_of_words {r r' : Row Float} (h : r.Legible) (h' : r'.Legible)
    (same : r.words = r'.words) : r = r' := by
  obtain ⟨same, ends⟩ := List.append_inj' same rfl
  obtain ⟨starts, bodies⟩ := List.append_inj same rfl
  simp only [List.cons.injEq, and_true, true_and] at starts ends
  obtain ⟨relations, numbers⟩ := ends
  have ids : r.id = r'.id := by simpa using starts
  have body := Body.words_injective isPower_one (by decide) rfl h.body h'.body bodies
  have relation := relationText_injective h.relation h'.relation relations
  have rhs := signedText_injective h.rhs h'.rhs numbers
  cases r
  cases r'
  simp_all

structure Bound.Legible (b : Bound Float) : Prop where
  name : Solid b.name
  lower : ∀ x ∈ b.lower, x.isNaN = false
  upper : ∀ x ∈ b.upper, x.isNaN = false

/-- The same bounds, with infinite ones in place of missing ones. -/
def Bound.closed (b : Bound Float) : Bound Float :=
  ⟨b.name, some (b.lower.getD (-infinity)), some (b.upper.getD infinity)⟩

def Bound.words (b : Bound Float) : List String :=
  match b.lower, b.upper with
  | none, none => ["", b.name, "free"]
  | some lower, none => ["", b.name, ">=", Scalar.text lower]
  | lower, some upper =>
    ["", Scalar.text (lower.getD (-infinity)), "<=", b.name, "<=", Scalar.text upper]

theorem Bound.spells_text {b : Bound Float} (h : b.Legible) : Spells b.text b.words := by
  have start : Spells "" [""] := Solid.spells (by simp [Solid])
  have atMost : Spells "<=" ["<="] := Solid.spells (by simp [Solid])
  have between {s t : String} (first : Solid s) (second : Solid t) :
      Spells (" " ++ s ++ " <= " ++ b.name ++ " <= " ++ t) ["", s, "<=", b.name, "<=", t] := by
    have blanks : " " ++ s ++ " <= " ++ b.name ++ " <= " ++ t =
        "" ++ " " ++ s ++ " " ++ "<=" ++ " " ++ b.name ++ " " ++ "<=" ++ " " ++ t :=
      String.toList_inj.mp (by simp)
    rw [blanks]
    exact ((((start.append first.spells).append atMost).append h.name.spells).append
      atMost).append second.spells
  unfold Bound.text Bound.words
  cases lower : b.lower with
  | none =>
      cases upper : b.upper with
      | none =>
          have blanks : " " ++ b.name ++ " free" = "" ++ " " ++ b.name ++ " " ++ "free" :=
            String.toList_inj.mp (by simp)
          show Spells (" " ++ b.name ++ " free") _
          rw [blanks]
          exact (start.append h.name.spells).append (Solid.spells (by simp [Solid]))
      | some y =>
          have infinite : Scalar.text (-infinity) = "-inf" := by decide +kernel
          have literal : " -inf <= " = " " ++ "-inf" ++ " <= " := by decide +kernel
          show Spells (" -inf <= " ++ b.name ++ " <= " ++ Scalar.text y)
            ["", Scalar.text (-infinity), "<=", b.name, "<=", Scalar.text y]
          rw [infinite, literal]
          exact between (by simp [Solid]) (solid_text y)
  | some x =>
      cases upper : b.upper with
      | none =>
          have blanks : " " ++ b.name ++ " >= " ++ Scalar.text x =
              "" ++ " " ++ b.name ++ " " ++ ">=" ++ " " ++ Scalar.text x :=
            String.toList_inj.mp (by simp)
          show Spells (" " ++ b.name ++ " >= " ++ Scalar.text x) _
          rw [blanks]
          exact ((start.append h.name.spells).append (Solid.spells (by simp [Solid]))).append
            (solid_text x).spells
      | some y => exact between (solid_text x) (solid_text y)

/-- Bounds are told by their words, but for an infinite lower bound beside an upper one. -/
theorem Bound.closed_eq_of_words {b b' : Bound Float} (h : b.Legible) (h' : b'.Legible)
    (same : b.words = b'.words) : b.closed = b'.closed := by
  have infinite : (-infinity).isNaN = false := by decide +kernel
  have lowers {b : Bound Float} (h : b.Legible) : (b.lower.getD (-infinity)).isNaN = false := by
    cases lower : b.lower with
    | none => exact infinite
    | some x => exact h.lower x lower
  have lower := lowers h
  have lower' := lowers h'
  obtain ⟨name, low, high⟩ := b
  obtain ⟨name', low', high'⟩ := b'
  dsimp only at lower lower'
  cases high with
  | none =>
      cases high' with
      | none =>
          cases low <;> cases low' <;> simp [Bound.words] at same
          case none.none => rw [same]
          case some.some x x' =>
            obtain ⟨rfl, texts⟩ := same
            rw [text_injective (h.lower x rfl) (h'.lower x' rfl) texts]
      | some y' => cases low <;> simp [Bound.words] at same
  | some y =>
      cases high' with
      | none => cases low' <;> simp [Bound.words] at same
      | some y' =>
          have texts : Scalar.text (low.getD (-infinity)) = Scalar.text (low'.getD (-infinity)) ∧
              name = name' ∧ Scalar.text y = Scalar.text y' := by
            cases low <;> cases low' <;> simpa [Bound.words] using same
          obtain ⟨lowerTexts, rfl, upperTexts⟩ := texts
          unfold Bound.closed
          rw [text_injective lower lower' lowerTexts,
            text_injective (h.upper y rfl) (h'.upper y' rfl) upperTexts]

end Lines

section Sections

/-- Contents are indented, headings and comments are not. -/
def indented (line : String) : Bool := line.toList.head? == some ' '

variable {xs ys rest rest' : List String} {a b : String}

/-- Contents end where a heading stands. -/
theorem cut_injective (h : ∀ x ∈ xs, indented x = true) (h' : ∀ y ∈ ys, indented y = true)
    (heading : indented a = false) (heading' : indented b = false)
    (same : xs ++ a :: rest = ys ++ b :: rest') : xs = ys ∧ a :: rest = b :: rest' := by
  have same : xs.flatMap (fun line => [line]) ++ a :: rest =
      ys.flatMap (fun line => [line]) ++ b :: rest' := by simpa using same
  have stop {lines : List String} {c : String} {tail : List String}
      (h : ∀ x ∈ lines, indented x = true) (heading : indented c = false) :
      ∀ x ∈ lines, ∀ r, c :: tail ≠ [x] ++ r := by
    intro x member r same
    rw [List.head_eq_of_cons_eq same, h x member] at heading
    cases heading
  exact flatMap_injective (fun x _ y _ r r' same => List.cons.inj same) (stop h' heading)
    (stop h heading') same

@[simp] theorem indented_blank (s : String) : indented (" " ++ s) = true := by
  simp [indented]

theorem indented_row (r : Row Float) : indented r.text = true := by
  unfold Row.text
  simp only [String.append_assoc]
  exact indented_blank _

theorem indented_bound (b : Bound Float) : indented b.text = true := by
  have infinite : " -inf <= " = " " ++ "-inf <= " := by decide +kernel
  unfold Bound.text
  split <;> simp only [infinite, String.append_assoc] <;> exact indented_blank _

/-- A titled list that is left out is missed where the next heading stands. -/
theorem titledList_injective {title : String} {names names' : List String}
    (heading : indented a = false) (heading' : indented b = false) (different : a ≠ title)
    (different' : b ≠ title)
    (same : titledList title names ++ a :: rest = titledList title names' ++ b :: rest') :
    names = names' ∧ a :: rest = b :: rest' := by
  unfold titledList at same
  have contents (names : List String) :
      ∀ line ∈ names.map fun name => " " ++ name, indented line = true := by
    intro line member
    obtain ⟨name, -, rfl⟩ := List.mem_map.mp member
    exact indented_blank name
  split at same <;> split at same
  next none none' =>
    rw [List.isEmpty_iff.mp none, List.isEmpty_iff.mp none']
    exact ⟨rfl, same⟩
  next => exact absurd (List.head_eq_of_cons_eq same) different
  next => exact absurd (List.head_eq_of_cons_eq same).symm different'
  next =>
    obtain ⟨lists, remaining⟩ := cut_injective (contents names) (contents names') heading heading'
      (List.tail_eq_of_cons_eq same)
    refine ⟨List.map_injective_iff.mpr (fun s t same => ?_) lists, remaining⟩
    simpa using same

end Sections

section Unbroken

variable {s t : String}

theorem unbroken_append (h : '\n' ∉ s.toList) (h' : '\n' ∉ t.toList) : '\n' ∉ (s ++ t).toList := by
  rw [String.toList_append, List.mem_append, not_or]
  exact ⟨h, h'⟩

theorem unbroken_intercalate {ss : List String} (h : ∀ s ∈ ss, '\n' ∉ s.toList) :
    '\n' ∉ (" ".intercalate ss).toList := by
  induction ss with
  | nil => simp
  | cons s ss ih =>
      obtain ⟨first, rest⟩ := List.forall_mem_cons.mp h
      cases ss with
      | nil => simpa using first
      | cons t ss =>
          rw [String.intercalate_cons_cons]
          exact unbroken_append (unbroken_append first (by simp)) (ih rest)

def Body.names {α : Type} : Body α → List String
  | .terms linear quadratic => linear.map Prod.fst ++ quadratic.flatMap fun t => [t.1, t.2.1]
  | .zero name => [name]

def Document.names {α : Type} (d : Document α) : List String :=
  d.objective.names ++ (d.rows.flatMap fun r => r.id :: r.body.names) ++
    (d.bounds.map Bound.name ++ d.general ++ d.binary)

theorem Body.Legible.solid_names {factor : Float} {body : Body Float} (h : body.Legible factor) :
    ∀ name ∈ body.names, Solid name := by
  cases body with
  | zero name => exact List.forall_mem_singleton.mpr h
  | terms linear quadratic =>
      obtain ⟨-, first, second⟩ := h
      rw [names, List.forall_mem_append, List.forall_mem_map, List.forall_mem_flatMap]
      refine ⟨fun t member => (first t member).name, fun t member => ?_⟩
      rw [List.forall_mem_cons, List.forall_mem_singleton]
      exact ⟨(second t member).left, (second t member).right⟩

theorem unbroken_signedText (x : Float) : '\n' ∉ (Scalar.signedText x).toList :=
  fun broken => (solid_signedText x _ broken).2 rfl

theorem unbroken_text (x : Float) : '\n' ∉ (Scalar.text x).toList :=
  fun broken => (solid_text x _ broken).2 rfl

theorem Body.unbroken_text {factor : Float} {tail : String} {body : Body Float}
    (h : ∀ name ∈ body.names, '\n' ∉ name.toList) (closed : '\n' ∉ tail.toList) :
    '\n' ∉ (body.text factor tail).toList := by
  cases body with
  | zero name => exact unbroken_append (by simp) (h name List.mem_cons_self)
  | terms linear quadratic =>
      rw [names, List.forall_mem_append, List.forall_mem_map] at h
      obtain ⟨first, second⟩ := h
      have linears : ∀ t ∈ linear, '\n' ∉ (linearText t).toList := fun t member =>
        unbroken_append (unbroken_append (unbroken_signedText _) (by simp)) (first t member)
      have quadratics : ∀ t ∈ quadratic, '\n' ∉ (quadraticText factor t).toList := by
        intro t member
        have left := second t.1 (List.mem_flatMap.mpr ⟨t, member, by simp⟩)
        have right := second t.2.1 (List.mem_flatMap.mpr ⟨t, member, by simp⟩)
        refine unbroken_append (unbroken_append (unbroken_signedText _) (by simp)) ?_
        split
        · exact unbroken_append left (by simp)
        · exact unbroken_append (unbroken_append left (by simp)) right
      refine unbroken_intercalate ?_
      rw [List.forall_mem_append, List.forall_mem_map]
      refine ⟨linears, ?_⟩
      unfold bracketText
      split
      · exact fun line none => absurd none List.not_mem_nil
      · rw [List.forall_mem_singleton]
        refine unbroken_append (unbroken_append (by simp) (unbroken_intercalate ?_)) closed
        exact List.forall_mem_map.mpr quadratics

theorem Row.unbroken_text {r : Row Float} (id : '\n' ∉ r.id.toList)
    (h : ∀ name ∈ r.body.names, '\n' ∉ name.toList) : '\n' ∉ r.text.toList := by
  have relation : '\n' ∉ (relationText r.relation).toList := by
    cases r.relation <;> simp [relationText]
  have start := unbroken_append (unbroken_append (s := " ") (by simp) id) (t := ": ") (by simp)
  have terms : '\n' ∉ (r.body.text 1 " ]").toList := Body.unbroken_text h (by simp)
  have body := unbroken_append start terms
  have middle := unbroken_append (unbroken_append body (t := " ") (by simp)) relation
  exact unbroken_append (unbroken_append middle (by simp)) (unbroken_signedText r.rhs)

theorem Bound.unbroken_text {b : Bound Float} (h : '\n' ∉ b.name.toList) :
    '\n' ∉ b.text.toList := by
  obtain ⟨name, lower, upper⟩ := b
  have start := unbroken_append (s := " ") (by simp) h
  cases lower with
  | none =>
      cases upper with
      | none => exact unbroken_append start (by simp)
      | some hi =>
          have middle := unbroken_append (s := " -inf <= ") (by simp) h
          exact unbroken_append (unbroken_append middle (by simp)) (Lp.unbroken_text hi)
  | some lo =>
      cases upper with
      | none => exact unbroken_append (unbroken_append start (by simp)) (Lp.unbroken_text lo)
      | some hi =>
          have lower := unbroken_append (s := " ") (by simp) (Lp.unbroken_text lo)
          have middle := unbroken_append (unbroken_append lower (t := " <= ") (by simp)) h
          exact unbroken_append (unbroken_append middle (by simp)) (Lp.unbroken_text hi)

theorem unbroken_titledList {title : String} (h : '\n' ∉ title.toList) {names : List String}
    (unbroken : ∀ name ∈ names, '\n' ∉ name.toList) :
    ∀ line ∈ titledList title names, '\n' ∉ line.toList := by
  unfold titledList
  split
  · exact fun line none => absurd none List.not_mem_nil
  · refine List.forall_mem_cons.mpr ⟨h, List.forall_mem_map.mpr fun name member => ?_⟩
    exact unbroken_append (by simp) (unbroken name member)

end Unbroken

section Documents

structure Document.Legible (d : Document Float) : Prop where
  objective : d.objective.Legible 2
  constant : ∀ c ∈ d.constant, c.isNaN = false
  rows : ∀ r ∈ d.rows, r.Legible
  bounds : ∀ b ∈ d.bounds, b.Legible
  general : ∀ name ∈ d.general, Solid name
  binary : ∀ name ∈ d.binary, Solid name

/-- The same document, with infinite bounds in place of missing ones. -/
def Document.closed (d : Document Float) : Document Float :=
  { d with bounds := d.bounds.map Bound.closed }

namespace Document

variable {d d' : Document Float}

def ending (d : Document Float) : List String :=
  titledList "General" d.general ++ (titledList "Binary" d.binary ++ ["End"])

theorem lines_eq (d : Document Float) :
    d.lines = directionText d.direction :: (" obj: " ++ objectiveText d.objective) ::
      ((d.constant.map constantText).toList ++ "Subject To" :: (d.rows.map Row.text ++
        "Bounds" :: (d.bounds.map Bound.text ++ d.ending))) := by
  simp [lines, ending]

theorem toList_constantText (x : Float) : (constantText x).toList =
    "\\ objective constant ".toList ++ (Scalar.signedText x).toList :=
  String.toList_append ..

/-- No line has a line break in it, as long as no name has one. -/
theorem unbroken_lines (h : ∀ name ∈ d.names, '\n' ∉ name.toList) :
    ∀ line ∈ d.lines, '\n' ∉ line.toList := by
  simp only [names, List.forall_mem_append, List.forall_mem_flatMap, List.forall_mem_cons,
    List.forall_mem_map] at h
  obtain ⟨⟨objective, rows⟩, ⟨bounds, general⟩, binary⟩ := h
  rw [lines_eq, ending]
  simp only [List.forall_mem_cons, List.forall_mem_append, List.forall_mem_map]
  refine ⟨?_, unbroken_append (by simp) (Body.unbroken_text objective (by simp)), ?_, by simp,
    fun r member => Row.unbroken_text (rows r member).1 (rows r member).2, by simp,
    fun b member => Bound.unbroken_text (bounds b member),
    unbroken_titledList (by simp) general, unbroken_titledList (by simp) binary, by simp,
    fun line none => absurd none List.not_mem_nil⟩
  · cases d.direction <;> simp [directionText]
  · intro line member
    obtain ⟨c, -, rfl⟩ : ∃ c ∈ d.constant, constantText c = line := by simpa using member
    exact unbroken_append (by decide +kernel) (unbroken_signedText c)

theorem Legible.solid_names (h : d.Legible) : ∀ name ∈ d.names, Solid name := by
  simp only [names, List.forall_mem_append, List.forall_mem_flatMap, List.forall_mem_cons,
    List.forall_mem_map]
  exact ⟨⟨h.objective.solid_names, fun r member => ⟨(h.rows r member).id,
    (h.rows r member).body.solid_names⟩⟩, ⟨fun b member => (h.bounds b member).name, h.general⟩,
    h.binary⟩

theorem Legible.unbroken (h : d.Legible) : ∀ line ∈ d.lines, '\n' ∉ line.toList :=
  unbroken_lines fun name member broken => (h.solid_names name member _ broken).2 rfl

theorem directionText_injective {c c' : Direction} (same : directionText c = directionText c') :
    c = c' := by
  revert same
  cases c <;> cases c' <;> simp [directionText]

/-- The comment on a constant term is missed where the rows start. -/
theorem constant_injective {c c' : Option Float} {rest rest' : List String}
    (h : ∀ x ∈ c, x.isNaN = false) (h' : ∀ x ∈ c', x.isNaN = false)
    (same : (c.map constantText).toList ++ "Subject To" :: rest =
      (c'.map constantText).toList ++ "Subject To" :: rest') : c = c' ∧ rest = rest' := by
  have comment (x : Float) : constantText x ≠ "Subject To" := by
    intro same
    have backslash : "\\ objective constant ".toList.head? = some '\\' := by decide +kernel
    have letter : "Subject To".toList.head? = some 'S' := by decide +kernel
    rw [← String.toList_inj, toList_constantText] at same
    have heads := congrArg List.head? same
    rw [List.head?_append, backslash, letter] at heads
    exact absurd heads (by simp)
  cases c <;> cases c'
  case none.none => exact ⟨rfl, List.tail_eq_of_cons_eq same⟩
  case none.some x => exact absurd (List.head_eq_of_cons_eq same).symm (comment x)
  case some.none x => exact absurd (List.head_eq_of_cons_eq same) (comment x)
  case some.some x x' =>
    have texts : constantText x = constantText x' := List.head_eq_of_cons_eq same
    have rests := List.tail_eq_of_cons_eq (List.tail_eq_of_cons_eq same)
    have numbers : Scalar.signedText x = Scalar.signedText x' := by
      rw [← String.toList_inj, toList_constantText, toList_constantText] at texts
      exact String.toList_inj.mp (List.append_cancel_left texts)
    rw [signedText_injective (h x rfl) (h' x' rfl) numbers]
    exact ⟨rfl, rests⟩

/-- A heading follows the list of integer variables. -/
theorem exists_heading (names : List String) : ∃ a rest,
    titledList "Binary" names ++ ["End"] = a :: rest ∧ indented a = false ∧ a ≠ "General" := by
  unfold titledList
  split
  · exact ⟨"End", [], rfl, by decide +kernel, by decide⟩
  · exact ⟨"Binary", _, rfl, by decide +kernel, by decide⟩

/-- The lists of names are told by what stands after the bounds. -/
theorem ending_injective (same : d.ending = d'.ending) :
    d.general = d'.general ∧ d.binary = d'.binary := by
  obtain ⟨a, rest, second, heading, different⟩ := exists_heading d.binary
  obtain ⟨b, rest', second', heading', different'⟩ := exists_heading d'.binary
  unfold ending at same
  rw [second, second'] at same
  obtain ⟨general, same⟩ := titledList_injective heading heading' different different' same
  rw [← second, ← second'] at same
  have last : indented "End" = false := by decide +kernel
  exact ⟨general, (titledList_injective last last (by decide) (by decide) same).1⟩

/-- A heading follows the bounds. -/
theorem exists_ending (d : Document Float) :
    ∃ a rest, d.ending = a :: rest ∧ indented a = false := by
  unfold ending
  cases names : d.general with
  | nil =>
      obtain ⟨a, rest, second, heading, -⟩ := exists_heading d.binary
      exact ⟨a, rest, second, heading⟩
  | cons name names => exact ⟨"General", _, rfl, by decide +kernel⟩

/-- The text of a document tells the document, but for infinite bounds. -/
theorem closed_eq_of_text (h : d.Legible) (h' : d'.Legible) (same : d.text = d'.text) :
    d.closed = d'.closed := by
  have same := lines_injective h.unbroken h'.unbroken same
  rw [lines_eq, lines_eq] at same
  obtain ⟨directions, same⟩ := List.cons.inj same
  obtain ⟨objectives, same⟩ := List.cons.inj same
  have objective := spells_objectiveText h.objective
  rw [objectives] at objective
  have words := List.append_cancel_left (objective.unique (spells_objectiveText h'.objective))
  obtain ⟨constant, same⟩ := constant_injective h.constant h'.constant same
  have heading : indented "Bounds" = false := by decide +kernel
  obtain ⟨rows, same⟩ := cut_injective
    (List.forall_mem_map.mpr fun r _ => indented_row r)
    (List.forall_mem_map.mpr fun r _ => indented_row r) heading heading same
  obtain ⟨a, rest, ending, last⟩ := d.exists_ending
  obtain ⟨a', rest', ending', last'⟩ := d'.exists_ending
  have same := List.tail_eq_of_cons_eq same
  rw [ending, ending'] at same
  obtain ⟨bounds, same⟩ := cut_injective
    (List.forall_mem_map.mpr fun b _ => indented_bound b)
    (List.forall_mem_map.mpr fun b _ => indented_bound b) last last' same
  rw [← ending, ← ending'] at same
  obtain ⟨general, binary⟩ := ending_injective same
  have direction := directionText_injective directions
  have objective := Body.words_injective isPower_two (by decide) rfl h.objective h'.objective words
  have rows : d.rows = d'.rows := by
    have same := map_eq_of_map_eq (g := id) (fun r member r' member' texts => ?_) rows
    · simpa using same
    · have spelled := Row.spells_text (h.rows r member)
      rw [texts] at spelled
      exact Row.eq_of_words (h.rows r member) (h'.rows r' member')
        (spelled.unique (Row.spells_text (h'.rows r' member')))
  have bounds : d.bounds.map Bound.closed = d'.bounds.map Bound.closed := by
    refine map_eq_of_map_eq (fun b member b' member' texts => ?_) bounds
    have spelled := Bound.spells_text (h.bounds b member)
    rw [texts] at spelled
    exact Bound.closed_eq_of_words (h.bounds b member) (h'.bounds b' member')
      (spelled.unique (Bound.spells_text (h'.bounds b' member')))
  unfold closed
  cases d
  cases d'
  simp_all

end Document

end Documents

end MipModel.Lp
