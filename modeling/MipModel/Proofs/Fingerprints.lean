import MipModel.Proofs.ByteOrder
import MipModel.Proofs.Soundness
import MipModel.Proofs.Switches

/-!
# What the bytes of a fingerprint tell

A fingerprint is hashed as one string of bytes without lengths, in which a star closes a name, a
semicolon a term and a one byte an operand. Since the eight bytes of a coefficient can be anything,
the string cannot be read from the left. It can be read from the right as long as names are free of
these three bytes: parameters and coefficients are cut off by their width, and a name ends on the
left at the first byte that belongs to no name (`ToldBehind`).

So fingerprints in the same context with the same bytes are the same if their operands are, or if
their names are free of the three bytes and they have equally many parameters
(`Fingerprint.eq_of_bytes_eq`). Such constructs of a model are therefore told apart
(`recorded_apart`). Others can have the same bytes and still be different, and the second one is then
taken for the first (`product_taken_for_variable`).
-/

namespace MipModel

section Reading

variable {β γ δ : Type} {E : β → Prop} {S : γ → Prop} {code : γ → List β}

/-- The last member of a word has a property, if there is one. -/
def EndsIn (E : β → Prop) (word : List β) : Prop := ∀ b ∈ word.getLast?, E b

@[simp] theorem endsIn_nil (E : β → Prop) : EndsIn E [] := fun _ none => nomatch none

@[simp] theorem endsIn_concat {front : List β} {b : β} : EndsIn E (front ++ [b]) ↔ E b := by
  simp [EndsIn]

theorem EndsIn.eq_nil {front rest : List β} (ends : EndsIn E (front ++ rest))
    (free : ∀ b ∈ rest, ¬E b) : rest = [] := by
  obtain rfl | ⟨init, b, rfl⟩ := rest.eq_nil_or_concat'
  · rfl
  · rw [← List.append_assoc, endsIn_concat] at ends
    exact absurd ends (free b (by simp))

/-- What is written behind a word that ends in `E` can be told and taken off. -/
def ToldBehind (E : β → Prop) (S : γ → Prop) (code : γ → List β) : Prop :=
  ∀ x y front front', S x → S y → EndsIn E front → EndsIn E front' →
    front ++ code x = front' ++ code y → front = front' ∧ x = y

/-- Words without ends are told by where the last end is. -/
theorem toldBehind_of_free (injective : Function.Injective code)
    (free : ∀ x, S x → ∀ b ∈ code x, ¬E b) : ToldBehind E S code := by
  intro x y front front' hx hy ends ends' same
  obtain ⟨rest, rfl, split⟩ | ⟨rest, rfl, split⟩ := List.append_eq_append_iff.mp same
  · have none : rest = [] := ends'.eq_nil fun b member =>
      free x hx b (split ▸ List.mem_append_left _ member)
    subst none
    exact ⟨(List.append_nil _).symm, injective split⟩
  · have none : rest = [] := ends.eq_nil fun b member =>
      free y hy b (split ▸ List.mem_append_left _ member)
    subst none
    exact ⟨List.append_nil _, (injective split).symm⟩

theorem ToldBehind.map (h : ToldBehind E S code) {f : δ → γ} (injective : Function.Injective f) :
    ToldBehind E (fun d => S (f d)) (fun d => code (f d)) := by
  intro x y front front' hx hy ends ends' same
  obtain ⟨fronts, told⟩ := h (f x) (f y) front front' hx hy ends ends' same
  exact ⟨fronts, injective told⟩

theorem ToldBehind.imp (h : ToldBehind E S code) {S' : γ → Prop} (stronger : ∀ x, S' x → S x) :
    ToldBehind E S' code :=
  fun x y front front' hx hy => h x y front front' (stronger x hx) (stronger y hy)

/-- Words of a fixed width that determine what they stand for. -/
structure FixedWidth (code : γ → List β) (width : Nat) : Prop where
  length : ∀ x, (code x).length = width
  injective : Function.Injective code

namespace FixedWidth

variable {width : Nat}

theorem comp (h : FixedWidth code width) {f : δ → γ} (injective : Function.Injective f) :
    FixedWidth (fun d => code (f d)) width :=
  ⟨fun d => h.length (f d), h.injective.comp injective⟩

theorem length_flatMap (h : FixedWidth code width) (xs : List γ) :
    (xs.flatMap code).length = xs.length * width := by
  simp [List.length_flatMap, h.length]

/-- Without any marks, words of the same positive width are told one by one. -/
theorem flatMap_injective (h : FixedWidth code width) (positive : 0 < width) :
    Function.Injective fun xs : List γ => xs.flatMap code := by
  intro xs ys same
  have count : xs.length = ys.length := Nat.eq_of_mul_eq_mul_right positive (by
    rw [← h.length_flatMap, ← h.length_flatMap]
    exact congrArg List.length same)
  induction xs generalizing ys with
  | nil => exact (List.length_eq_zero_iff.mp count.symm).symm
  | cons x xs ih =>
      cases ys with
      | nil => cases count
      | cons y ys =>
          simp only [List.flatMap_cons] at same
          obtain ⟨first, rest⟩ := List.append_inj same ((h.length x).trans (h.length y).symm)
          rw [h.injective first, ih rest (Nat.succ.inj count)]

end FixedWidth

/-- Something of a fixed width can follow. -/
theorem ToldBehind.append (h : ToldBehind E S code) {tail : δ → List β} {width : Nat}
    (fixed : FixedWidth tail width) :
    ToldBehind E (fun t : γ × δ => S t.1) (fun t => code t.1 ++ tail t.2) := by
  rintro ⟨x, c⟩ ⟨y, d⟩ front front' hx hy ends ends' same
  rw [← List.append_assoc, ← List.append_assoc] at same
  obtain ⟨before, after⟩ := List.append_inj' same ((fixed.length c).trans (fixed.length d).symm)
  obtain ⟨fronts, rfl⟩ := h x y front front' hx hy ends ends' before
  obtain rfl := fixed.injective after
  exact ⟨fronts, rfl⟩

def closing (mark : β) (code : γ → List β) (xs : List γ) : List β :=
  xs.flatMap fun x => code x ++ [mark]

@[simp] theorem closing_nil (mark : β) (code : γ → List β) : closing mark code [] = [] := rfl

@[simp] theorem closing_concat (mark : β) (code : γ → List β) (xs : List γ) (x : γ) :
    closing mark code (xs ++ [x]) = closing mark code xs ++ code x ++ [mark] := by
  simp [closing]

theorem EndsIn.append_closing {front : List β} (ends : EndsIn E front) {mark : β} (closes : E mark)
    (xs : List γ) : EndsIn E (front ++ closing mark code xs) := by
  obtain rfl | ⟨init, x, rfl⟩ := xs.eq_nil_or_concat'
  · simpa using ends
  · rwa [closing_concat, ← List.append_assoc, endsIn_concat]

/-- Members are told one by one, the last one first, when each is closed by a mark and what stands
before all of them does not end in that mark. -/
theorem ToldBehind.closing (h : ToldBehind E S code) {mark : β} (closes : E mark) :
    ToldBehind (fun b => E b ∧ b ≠ mark) (fun xs => ∀ x ∈ xs, S x)
      (MipModel.closing mark code) := by
  -- A list of members cannot be empty where the other one is not: the mark would end the front.
  have unmarked {front front' : List β} {ys : List γ} {y : γ}
      (ends : EndsIn (fun b => E b ∧ b ≠ mark) front) :
      front ≠ front' ++ MipModel.closing mark code (ys ++ [y]) := by
    rintro rfl
    rw [closing_concat, ← List.append_assoc, endsIn_concat] at ends
    exact ends.2 rfl
  intro xs
  induction xs using List.reverseRecOn with
  | nil =>
      intro ys front front' _ _ ends _ same
      have same : front = front' ++ MipModel.closing mark code ys := by simpa using same
      obtain rfl | ⟨init, y, rfl⟩ := ys.eq_nil_or_concat'
      · exact ⟨by simpa using same, rfl⟩
      · exact absurd same (unmarked ends)
  | append_singleton xs x ih =>
      intro ys front front' hx hy ends ends' same
      obtain rfl | ⟨init, y, rfl⟩ := ys.eq_nil_or_concat'
      · have same : front' = front ++ MipModel.closing mark code (xs ++ [x]) := by
          simpa using same.symm
        exact absurd same (unmarked ends')
      · obtain ⟨hxs, hx⟩ := List.forall_mem_append.mp hx
        obtain ⟨hys, hy⟩ := List.forall_mem_append.mp hy
        simp only [closing_concat, ← List.append_assoc] at same
        have weaker {word : List β} (ends : EndsIn (fun b => E b ∧ b ≠ mark) word) :
            EndsIn E word := fun b last => (ends b last).1
        obtain ⟨before, rfl⟩ := h x y _ _ (hx x List.mem_cons_self) (hy y List.mem_cons_self)
          ((weaker ends).append_closing closes xs) ((weaker ends').append_closing closes init)
          (List.append_cancel_right same)
        obtain ⟨fronts, rfl⟩ := ih init front front' hxs hys ends ends' before
        exact ⟨fronts, rfl⟩

end Reading

namespace Fingerprint

section Numbers

/-- The last digits of a number are told one by one. -/
theorem mod_pow_eq_of_digits_eq (base k : Nat) {m n : Nat}
    (same : ∀ i < k, m / base ^ i % base = n / base ^ i % base) :
    m % base ^ k = n % base ^ k := by
  induction k with
  | zero => rw [pow_zero, Nat.mod_one, Nat.mod_one]
  | succ k ih =>
      rw [Nat.mod_pow_succ, Nat.mod_pow_succ, ih fun i less => same i (Nat.lt_succ_of_lt less),
        same k (Nat.lt_succ_self k)]

/-- The eight bytes of a word, least significant first. -/
def wordBytes (w : UInt64) : List UInt8 :=
  (List.range 8).map fun i => UInt8.ofNat (w.toNat / Nat.pow 256 i % 256)

/-- Eight bytes determine a word. -/
theorem fixedWidth_wordBytes : FixedWidth wordBytes 8 where
  length w := by simp [wordBytes]
  injective v w same := by
    have digits : ∀ i < 8, v.toNat / 256 ^ i % 256 = w.toNat / 256 ^ i % 256 := by
      intro i less
      have byte := congrArg UInt8.toNat (List.map_inj_left.mp same i (List.mem_range.mpr less))
      rw [UInt8.toNat_ofNat', UInt8.toNat_ofNat'] at byte
      simpa using byte
    have bits : v.toNat % 2 ^ 64 = w.toNat % 2 ^ 64 := mod_pow_eq_of_digits_eq 256 8 digits
    rw [Nat.mod_eq_of_lt v.toNat_lt, Nat.mod_eq_of_lt w.toNat_lt] at bits
    exact UInt64.toNat_inj.mp bits

/-- The bytes of a number are those of its bits. -/
theorem fixedWidth_numberBytes : FixedWidth numberBytes 8 :=
  fixedWidth_wordBytes.comp fun _ _ same => Float.toBits_inj.mp same

end Numbers

section Operands

variable {α : Type}

/-- The bytes of a polynomial whose numbers are written in a given way: each factor is closed by a
star, and each term by a semicolon behind its coefficient. -/
def polynomialCode (number : α → List UInt8) (p : Polynomial α) : List UInt8 :=
  closing 0x3B (fun t => closing 0x2A textBytes t.1.names ++ number t.2) p.toList

theorem textBytes_injective : Function.Injective textBytes := fun _ _ same =>
  String.toByteArray_inj.mp (ByteArray.ext (Array.toList_inj.mp same))

def Lacks (E : UInt8 → Prop) (name : String) : Prop := ∀ b ∈ textBytes name, ¬E b

variable {E : UInt8 → Prop} {number : α → List UInt8} {width : Nat}

theorem toldBehind_text : ToldBehind E (Lacks E) textBytes :=
  toldBehind_of_free textBytes_injective fun _ free => free

/-- A term, without the semicolon that closes it. -/
theorem toldBehind_term (fixed : FixedWidth number width) (star : E 0x2A) :
    ToldBehind (fun b => E b ∧ b ≠ 0x2A)
      (fun t : Monomial × α => ∀ x ∈ t.1.names, Lacks E x)
      (fun t => closing 0x2A textBytes t.1.names ++ number t.2) := by
  have injective : Function.Injective Monomial.names := fun a b same => by
    cases a
    cases b
    exact congrArg Monomial.mk same
  have names := (toldBehind_text (E := E)).closing star
  exact (names.map injective).append fixed

/-- Operands are told, if their names are free of the marks, behind what does not end in a mark. -/
theorem toldBehind_operands (fixed : FixedWidth number width) (star : E 0x2A)
    (semicolon : E 0x3B) (one : E 1) :
    ToldBehind (fun b => ((E b ∧ b ≠ 0x2A) ∧ b ≠ 0x3B) ∧ b ≠ 1)
      (fun ps => ∀ p ∈ ps, p.Over (Lacks E)) (closing 1 (polynomialCode number)) := by
  have injective : Function.Injective (Polynomial.toList (α := α)) := fun p q same => by
    obtain ⟨⟨_⟩⟩ := p
    obtain ⟨⟨_⟩⟩ := q
    exact congrArg (fun terms => Polynomial.mk ⟨terms⟩) same
  have terms := (toldBehind_term fixed star).closing ⟨semicolon, by decide⟩
  have polynomials := (terms.map injective).imp fun p (free : p.Over (Lacks E)) t member =>
    free.names_of_mem member
  exact polynomials.closing ⟨⟨one, by decide⟩, by decide⟩

end Operands

section Parts

variable {α : Type} {number : α → List UInt8} {width : Nat}

theorem eq_of_parts {f f' : Fingerprint α} (construct : f.construct = f'.construct)
    (context : f.context = f'.context) (operands : f.operands = f'.operands)
    (parameters : f.parameters = f'.parameters) : f = f' := by
  cases f
  cases f'
  simp only at construct context operands parameters
  rw [construct, context, operands, parameters]

/-- The bytes of operands and parameters whose numbers are written in a given way. -/
def tail (number : α → List UInt8) (f : Fingerprint α) : List UInt8 :=
  closing 1 (polynomialCode number) f.operands ++ f.parameters.flatMap number

/-- The bytes of a fingerprint whose numbers are written in a given way. -/
def code (number : α → List UInt8) (f : Fingerprint α) : List UInt8 :=
  textBytes f.construct.name ++ 0 :: (textBytes f.context ++ 0 :: f.tail number)

theorem bytes_eq_code (f : Fingerprint Float) : f.bytes = f.code numberBytes := by
  have operands : f.operands.flatMap (fun p => polynomialBytes p ++ [1]) =
      closing 1 (polynomialCode numberBytes) f.operands := rfl
  simp [bytes, code, tail, operands]

theorem construct_name_injective : Function.Injective Construct.name := by
  intro c d same
  cases c <;> cases d <;> first | rfl | exact absurd same (by decide)

/-- The construct is told by what stands before the first zero byte. -/
theorem construct_eq_of_code_eq {f f' : Fingerprint α} (same : f.code number = f'.code number) :
    f.construct = f'.construct := by
  have first (c : Construct) (rest : List UInt8) :
      (textBytes c.name ++ 0 :: rest).takeWhile (· ≠ 0) = textBytes c.name := by
    have nonzero : ∀ b ∈ textBytes c.name, decide (b ≠ 0) = true := by
      cases c <;> decide +kernel
    rw [List.takeWhile_append_of_pos nonzero]
    simp
  apply construct_name_injective
  apply textBytes_injective
  rw [code, code] at same
  rw [← first f.construct, same, first]

/-- The bytes that close names, terms and operands. -/
def Delimits (b : UInt8) : Prop := b = 0x2A ∨ b = 0x3B ∨ b = 1

/-- Behind what does not end in a mark, operands and equally many parameters are told. -/
theorem tail_told {E : UInt8 → Prop} (fixed : FixedWidth number width) (star : E 0x2A)
    (semicolon : E 0x3B) (one : E 1) {front front' : List UInt8} {f f' : Fingerprint α}
    (ends : EndsIn (fun b => ((E b ∧ b ≠ 0x2A) ∧ b ≠ 0x3B) ∧ b ≠ 1) front)
    (ends' : EndsIn (fun b => ((E b ∧ b ≠ 0x2A) ∧ b ≠ 0x3B) ∧ b ≠ 1) front')
    (free : ∀ p ∈ f.operands, p.Over (Lacks E)) (free' : ∀ p ∈ f'.operands, p.Over (Lacks E))
    (count : f.parameters.length = f'.parameters.length)
    (same : front ++ f.tail number = front' ++ f'.tail number) :
    front = front' ∧ f.operands = f'.operands ∧
      f.parameters.flatMap number = f'.parameters.flatMap number := by
  rw [tail, tail, ← List.append_assoc, ← List.append_assoc] at same
  obtain ⟨before, parameters⟩ := List.append_inj' same (by
    rw [fixed.length_flatMap, fixed.length_flatMap, count])
  obtain ⟨fronts, operands⟩ := toldBehind_operands fixed star semicolon one f.operands f'.operands
    front front' free free' ends ends' before
  exact ⟨fronts, operands, parameters⟩

/-- In the same context, the bytes of fingerprints tell the operands if names are free of marks and
there are equally many parameters. They tell the parameters if the operands are the same. -/
theorem eq_of_code_eq (fixed : FixedWidth number width) (positive : 0 < width)
    {f f' : Fingerprint α} (context : f.context = f'.context)
    (same : f.code number = f'.code number)
    (told : f.operands = f'.operands ∨ (∀ p ∈ f.operands ++ f'.operands, p.Over (Lacks Delimits)) ∧
      f.parameters.length = f'.parameters.length) : f = f' := by
  have construct := construct_eq_of_code_eq same
  rw [code, code, construct, context] at same
  have same := List.append_cancel_left same
  have same := List.append_cancel_left (List.tail_eq_of_cons_eq same)
  have same := List.tail_eq_of_cons_eq same
  obtain ⟨operands, parameters⟩ : f.operands = f'.operands ∧
      f.parameters.flatMap number = f'.parameters.flatMap number := by
    obtain operands | ⟨free, count⟩ := told
    · rw [tail, tail, operands] at same
      exact ⟨operands, List.append_cancel_left same⟩
    · obtain ⟨free, free'⟩ := List.forall_mem_append.mp free
      exact (tail_told fixed (.inl rfl) (.inr (.inl rfl)) (.inr (.inr rfl)) (endsIn_nil _)
        (endsIn_nil _) free free' count same).2
  exact eq_of_parts construct context operands (fixed.flatMap_injective positive parameters)

variable {f f' : Fingerprint Float}

theorem construct_eq_of_bytes_eq (same : f.bytes = f'.bytes) : f.construct = f'.construct := by
  rw [bytes_eq_code, bytes_eq_code] at same
  exact construct_eq_of_code_eq same

theorem eq_of_bytes_eq (context : f.context = f'.context) (same : f.bytes = f'.bytes)
    (told : f.operands = f'.operands ∨ (∀ p ∈ f.operands ++ f'.operands, p.Over (Lacks Delimits)) ∧
      f.parameters.length = f'.parameters.length) : f = f' := by
  rw [bytes_eq_code, bytes_eq_code] at same
  exact eq_of_code_eq fixedWidth_numberBytes (by decide) context same told

end Parts

end Fingerprint

open Fingerprint

section Recorded

variable {m : Model Float} {context : String} {g h : Gadget (Polynomial Float) Float}
  {p q : Polynomial Float}

/-- Different constructs in the memo of a model have different bytes in any of three cases: they are
of different kinds, they have the same operands, or the names in their operands are free of the
bytes that close names, terms and operands and they have equally many parameters. Unless the digests
of these bytes are the same, they are represented by different variables. -/
theorem recorded_apart (left : m.Recorded context g p) (right : m.Recorded context h q)
    (different : g ≠ h)
    (told : g.construct ≠ h.construct ∨ g.operands = h.operands ∨
      (∀ r ∈ g.operands ++ h.operands, r.Over (Lacks Delimits)) ∧
        g.parameters.length = h.parameters.length) :
    (g.fingerprint context).bytes ≠ (h.fingerprint context).bytes ∧
      ((g.fingerprint context).digest ≠ (h.fingerprint context).digest → p ≠ q) := by
  obtain ⟨shaped, rfl, -⟩ := left
  obtain ⟨shaped', rfl, -⟩ := right
  refine ⟨fun same => ?_, fun digests same => ?_⟩
  · have construct : g.construct = h.construct := construct_eq_of_bytes_eq same
    have told := told.resolve_left (absurd construct)
    exact different (Gadget.eq_of_fingerprint_eq shaped shaped' (eq_of_bytes_eq rfl same told))
  · have names : g.nameIn context = h.nameIn context := Polynomial.var_injective same
    obtain ⟨stem, name⟩ := exists_name_eq (g.fingerprint context)
    obtain ⟨stem', name'⟩ := exists_name_eq (h.fingerprint context)
    have equal : stem ++ "_" ++ (g.fingerprint context).digest =
        stem' ++ "_" ++ (h.fingerprint context).digest := by
      rw [← name, ← name']
      exact names
    exact digests (Identifier.append_inj_of_underscore (underscore_notMem_digest _)
      (underscore_notMem_digest _) equal).2

/-- The magnitudes of a product and of a sum of the same variables. -/
theorem product_apart_from_sum :
    let x : Polynomial Float := .var "v00000_x"
    let y : Polynomial Float := .var "v00001_y"
    let product : Gadget (Polynomial Float) Float := .abs (x.multiply y)
    let total : Gadget (Polynomial Float) Float := .abs (x.add y)
    let e : Expr Float := .add (.abs (.mul (.var "x" []) (.var "y" [])))
      (.abs (.add (.var "x" []) (.var "y" [])))
    let m : Model Float := .build .minimize .standard
      [.createVariable "x" .free, .createVariable "y" .free, .linearize .standard e .empty]
    ∃ p q, m.Recorded "" product p ∧ m.Recorded "" total q ∧
      (product.fingerprint "").bytes ≠ (total.fingerprint "").bytes ∧ p ≠ q := by
  intro x y product total e m
  have left : m.Recorded "" product (.var (product.nameIn "")) :=
    ⟨trivial, rfl, by decide +kernel⟩
  have right : m.Recorded "" total (.var (total.nameIn "")) := ⟨trivial, rfl, by decide +kernel⟩
  have free : ∀ r ∈ product.operands ++ total.operands, r.Over (Lacks Delimits) := by
    have single : ∀ name ∈ ["v00000_x", "v00001_y"], Lacks Delimits name := by
      unfold Lacks Delimits
      decide +kernel
    have hx : x.Over (Lacks Delimits) := Polynomial.over_var (single _ (by simp))
    have hy : y.Over (Lacks Delimits) := Polynomial.over_var (single _ (by simp))
    intro r member
    obtain rfl | rfl : r = x.multiply y ∨ r = x.add y := by
      simpa [product, total, Gadget.operands] using member
    · exact hx.multiply hy
    · exact hx.add hy
  have different : product ≠ total := by decide +kernel
  obtain ⟨bytes, apart⟩ := recorded_apart left right different (.inr (.inr ⟨free, rfl⟩))
  exact ⟨_, _, left, right, bytes, apart (by decide +kernel)⟩

/-- A variable can be registered under a name that is spelled like a product. The magnitudes of the
product and of the variable are different constructs with the same bytes: when one has been encoded,
its polynomial is taken for the other one as well, and nothing is added for that. -/
theorem product_taken_for_variable :
    let product : Polynomial Float := (Polynomial.var "x").multiply (.var "y")
    let starred : Polynomial Float := .var "x*y"
    let m : Model Float := .build .minimize .standard
      [.registerAs "x" .free, .registerAs "y" .free, .registerAs "x*y" .free]
    let m' := ((Model.linearize .standard (.abs (.poly product)) .empty).runOn m).2
    let p : Polynomial Float := .var (Gadget.nameIn "" (.abs product))
    m.Reachable ∧ Gadget.abs product ≠ (.abs starred : Gadget (Polynomial Float) Float) ∧
      (Gadget.fingerprint (.abs product) "").bytes = (Gadget.fingerprint (.abs starred) "").bytes ∧
      (Model.linearize .standard (.abs (.poly product)) .empty).runOn m = (.ok p, m') ∧
      (Model.linearize .standard (.abs (.poly starred)) .empty).runOn m' = (.ok p, m') ∧
      m'.constraints.size = 2 ∧ ∀ c ∈ m'.constraints.values, c.lhs.vars.contains "x*y" = false := by
  intro product starred m m' p
  have first : ((Model.linearize .standard (.abs (.poly product)) .empty).runOn m).1 = .ok p := by
    decide +kernel
  refine ⟨Model.reachable_build _ _ _, by decide +kernel, by decide +kernel, Prod.ext first rfl,
    by decide +kernel, by decide +kernel, by decide +kernel⟩

-- The number of parameters matters whatever the names are: where the argument is zero, the numbers
-- of three segments can be the bytes of another argument, followed by the numbers of one segment.
example :
    let argument : Polynomial Float :=
      (Polynomial.constant (.ofBits 0x3FF0000000000001)).add (.var "v00000_Account_Balance_Credit")
    let one : Piecewise Float := ⟨[0, 1], [1], [0]⟩
    let three : Piecewise Float :=
      ⟨[.ofBits 0x3B3FF00000000000, .ofBits 0x415F303030303076, .ofBits 0x425F746E756F6363,
        .ofBits 0x435F65636E616C61],
        [.ofBits 0x2A7469646572, .ofBits 0x13B3FF000000000, 0], [1, 1, 0]⟩
    one.check = .ok () ∧ three.check = .ok () ∧
      (Gadget.fingerprint (.piecewise argument one) "").bytes =
        (Gadget.fingerprint (.piecewise .zero three) "").bytes := by
  decide +kernel

end Recorded

end MipModel
