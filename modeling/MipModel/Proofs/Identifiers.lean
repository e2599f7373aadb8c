import MipModel.Proofs.Switches

/-!
# Identifiers

An identifier consists of ASCII letters, digits and underscores and starts with a letter
(`Identifier.isName`). What is generated is an identifier, whatever the labels and contexts it is
made from: a numbered name is, if its letter is, and so are the names of auxiliaries and of their
switches. The first part of such a name is one, and everything behind that is plain.
-/

namespace MipModel

namespace Identifier

/-- A text of ASCII letters, digits and underscores. -/
def Plain (s : String) : Prop := ∀ c ∈ s.toList, c.isAlphanum = true ∨ c = '_'

/-- An identifier: ASCII letters, digits and underscores that start with a letter. -/
def isName (s : String) : Bool :=
  match s.toList with
  | [] => false
  | first :: rest => first.isAlpha && rest.all fun c => c.isAlphanum || c == '_'

variable {s t : String}

/-- The codes of letters, digits and the underscore. -/
theorem Plain.codes (h : Plain s) {c : Char} (member : c ∈ s.toList) :
    c.toNat = 95 ∨ (48 ≤ c.toNat ∧ c.toNat ≤ 57) ∨ (65 ≤ c.toNat ∧ c.toNat ≤ 90) ∨
      (97 ≤ c.toNat ∧ c.toNat ≤ 122) := by
  obtain alphanumeric | rfl := h c member
  · simp only [Char.isAlphanum, Char.isAlpha, Char.isUpper, Char.isLower, Char.isDigit,
      Bool.or_eq_true, Bool.and_eq_true, decide_eq_true_eq, UInt32.le_iff_toNat_le,
      ge_iff_le] at alphanumeric
    change ((65 ≤ c.toNat ∧ c.toNat ≤ 90) ∨ (97 ≤ c.toNat ∧ c.toNat ≤ 122)) ∨
      (48 ≤ c.toNat ∧ c.toNat ≤ 57) at alphanumeric
    omega
  · exact .inl rfl

theorem Plain.append (h : Plain s) (h' : Plain t) : Plain (s ++ t) := by
  intro c member
  rw [String.toList_append] at member
  exact (List.mem_append.mp member).elim (h c) (h' c)

theorem plain_underscore : Plain "_" := by
  simp [Plain]

theorem plain_of_digits {cs : List Char} (digits : ∀ c ∈ cs, c.isDigit = true) :
    Plain (String.ofList cs) := by
  intro c member
  rw [String.toList_ofList] at member
  exact .inl (by simp [Char.isAlphanum, digits c member])

theorem plain_sanitize (label : String) : Plain (sanitize label) := by
  intro c member
  rw [sanitize, String.toList_ofList] at member
  obtain ⟨c', -, rfl⟩ := List.mem_map.mp member
  unfold safeChar
  split
  next safe => simpa using safe
  next => split <;> simp

theorem plain_counter (n : Nat) : Plain (counter n) := by
  refine plain_of_digits fun c member => ?_
  obtain zero | digit := List.mem_append.mp member
  · obtain rfl := List.eq_of_mem_replicate zero
    rfl
  · exact Nat.isDigit_of_mem_toDigits (by decide) (by decide) digit

theorem plain_of_isName (h : isName s = true) : Plain s := by
  intro c member
  unfold isName at h
  split at h
  next => cases h
  next first rest text =>
    rw [text] at member
    rw [Bool.and_eq_true, List.all_eq_true] at h
    obtain rfl | later := List.mem_cons.mp member
    · exact .inl (by simp [Char.isAlphanum, h.1])
    · simpa using h.2 c later

/-- What is plain can follow an identifier. -/
theorem isName_append (h : isName s = true) (h' : Plain t) : isName (s ++ t) = true := by
  unfold isName at h
  split at h
  next => cases h
  next first rest text =>
    rw [Bool.and_eq_true, List.all_eq_true] at h
    rw [isName, String.toList_append, text, List.cons_append]
    dsimp only
    rw [Bool.and_eq_true, List.all_append, Bool.and_eq_true, List.all_eq_true, List.all_eq_true]
    exact ⟨h.1, h.2, fun c member => by simpa using h' c member⟩

/-- A numbered name is an identifier, whatever its label. -/
theorem isName_numbered {letter : String} (h : isName letter = true) (n : Nat) (label : String) :
    isName (numbered letter n label) = true := by
  have counted := isName_append h (plain_counter n)
  unfold numbered
  split
  · exact counted
  · exact isName_append (isName_append counted plain_underscore) (plain_sanitize label)

theorem plain_of_isMark {mark : String} (h : IsMark mark) : Plain mark := by
  obtain rfl | ⟨n, rfl⟩ := h
  · simp [Plain]
  · refine Plain.append (by simp [Plain]) (plain_of_digits fun c member => ?_)
    exact Nat.isDigit_of_mem_toDigits (by decide) (by decide) member

end Identifier

open Identifier

namespace Fingerprint

theorem plain_digest (f : Fingerprint Float) : Plain (digest f) := by
  have digits : ∀ c ∈ "0123456789abcdef".toList, c.isAlphanum = true := by simp
  exact fun c member => .inl (digits c (hexadecimal_of_mem_digest member))

/-- An auxiliary is named by an identifier, whatever its context. -/
theorem isName_name (f : Fingerprint Float) : isName (name f) = true := by
  have construct : isName f.construct.name = true := by
    cases f.construct <;> decide
  have parts : name f = f.construct.name ++ "_" ++ digest f ∨
      name f = f.construct.name ++ "_" ++ sanitize f.context ++ "_" ++ digest f := by
    unfold name Identifier.join
    dsimp only
    split
    · exact .inl (by simp)
    · exact .inr (by simp [String.append_assoc])
  have stem := isName_append construct plain_underscore
  obtain short | long := parts
  · rw [short]
    exact isName_append stem (plain_digest f)
  · rw [long]
    exact isName_append (isName_append (isName_append stem (plain_sanitize f.context))
      plain_underscore) (plain_digest f)

end Fingerprint

/-- Constraints are named by identifiers, whatever their labels. -/
theorem Model.Numbered.isName {α : Type} {m : Model α} (h : m.Numbered) {id : String}
    (used : id ∈ m.constraints.names) : Identifier.isName id = true := by
  obtain ⟨n, -, label, rfl⟩ := h id used
  exact isName_numbered (by decide) n label

/-- The variables of a gadget are named by identifiers. -/
theorem Gadget.isName_of_mem_vars {g : Gadget (Polynomial Float) Float} {context x : String}
    (h : x ∈ (g.vars (g.nameIn context)).map Prod.fst) : isName x = true := by
  have own : isName (g.nameIn context) = true := Fingerprint.isName_name _
  obtain rfl | ⟨mark, isMark, rfl⟩ := Gadget.name_of_mem_vars h
  · exact own
  · exact isName_append (isName_append own plain_underscore) (plain_of_isMark isMark)

end MipModel
