import Mathlib
import MipModel.Linearization.Naming

/-!
# Byte order

Names are ordered by their characters. In UTF-8, comparing the bytes of two texts gives the same
order (`textBytes_lt_iff`): the code of a lesser character comes before the code of a greater one
whatever follows them, since no code is the start of another. What holds of names holds of lists of
names (`bytes_lt_iff`), which is how monomials are compared.
-/

namespace MipModel

section Codes

variable {α β : Type} [LT α] [LT β]

/-- The first word comes before the second whatever follows them. -/
def Precedes (xs ys : List β) : Prop := ∀ us vs, xs ++ us < ys ++ vs

/-- Lists are in the order of their codes when no code is the start of another. -/
theorem flatMap_lt_flatMap {code : α → List β} (nonempty : ∀ a, code a ≠ [])
    (precedes : ∀ a b, a < b → Precedes (code a) (code b)) {as bs : List α} (h : as < bs) :
    as.flatMap code < bs.flatMap code := by
  induction h with
  | @nil b bs =>
      obtain ⟨x, xs, same⟩ := List.exists_cons_of_ne_nil (nonempty b)
      rw [List.flatMap_cons, same]
      exact List.nil_lt_cons _ _
  | rel less => exact precedes _ _ less _ _
  | @cons a as bs _ ih => exact List.Lex.append_left _ ih (code a)

end Codes

/-- A map that keeps a linear order reflects it as well. -/
theorem lt_iff_of_lt_imp_lt {α β : Type} [LinearOrder α] [LT β] [Std.Asymm (α := β) (· < ·)]
    {f : α → β} (keeps : ∀ a b, a < b → f a < f b) {a b : α} : f a < f b ↔ a < b := by
  refine ⟨fun less => ?_, keeps a b⟩
  by_contra notLess
  obtain greater | rfl := lt_or_eq_of_le (not_lt.mp notLess)
  · exact Std.Asymm.asymm _ _ less (keeps b a greater)
  · exact Std.Asymm.asymm _ _ less less

/-- The code of a lesser character comes first. Shorter codes start with lesser bytes; codes of the
same length are the digits of the characters to the base 64. -/
theorem utf8EncodeChar_precedes {c d : Char} (h : c < d) :
    Precedes (String.utf8EncodeChar c) (String.utf8EncodeChar d) := by
  have less : c.val.toNat < d.val.toNat := h
  have bound : d.val.toNat < 0x110000 := by
    obtain small | ⟨-, small⟩ := d.valid
    · exact Nat.lt_trans small (by decide)
    · exact small
  intro us vs
  unfold String.utf8EncodeChar
  dsimp only
  generalize c.val.toNat = m at less
  generalize d.val.toNat = n at less bound
  split_ifs <;>
    simp only [List.cons_append, List.nil_append, List.cons_lt_cons_iff, UInt8.lt_iff_toNat_lt,
      ← UInt8.toNat_inj, UInt8.toNat_ofNat'] <;>
    simp (disch := omega) only [Nat.mod_eq_of_lt] <;>
    omega

namespace Fingerprint

theorem textBytes_eq (s : String) : textBytes s = s.toList.flatMap String.utf8EncodeChar := by
  have bytes : s.toByteArray = (s.toList.flatMap String.utf8EncodeChar).toByteArray :=
    String.utf8Encode_toList.symm
  rw [textBytes, String.toUTF8, bytes, List.toList_data_toByteArray]

/-- The order of names is the order of their bytes. -/
theorem textBytes_lt_iff {a b : String} : textBytes a < textBytes b ↔ a < b := by
  apply lt_iff_of_lt_imp_lt
  intro a b less
  rw [textBytes_eq, textBytes_eq]
  exact flatMap_lt_flatMap (fun _ => String.utf8EncodeChar_ne_nil)
    (fun _ _ => utf8EncodeChar_precedes) (String.lt_iff.mp less)

theorem textBytes_le_iff {a b : String} : textBytes a ≤ textBytes b ↔ a ≤ b := by
  rw [← not_lt, ← textBytes_lt_iff]
  exact Iff.rfl

end Fingerprint

namespace Monomial

def bytes (m : Monomial) : List (List UInt8) := m.names.map Fingerprint.textBytes

/-- The order of monomials is the order of their bytes. -/
theorem bytes_lt_iff {a b : Monomial} : a.bytes < b.bytes ↔ a < b := by
  refine lt_iff_of_lt_imp_lt (f := List.map Fingerprint.textBytes) fun names names' less => ?_
  rw [List.map_eq_flatMap, List.map_eq_flatMap]
  refine flatMap_lt_flatMap (fun _ => List.cons_ne_nil _ _) (fun x y less us vs => ?_) less
  exact List.cons_lt_cons_iff.mpr (.inl (Fingerprint.textBytes_lt_iff.mpr less))

end Monomial

end MipModel
