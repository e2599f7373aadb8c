import MipModel.Proofs.Fingerprints
import MipModel.Proofs.Identifiers

/-!
# Decodable fingerprints

A name is safe if it is free of the zero byte and of the bytes that close names, terms and operands.
Fingerprints over safe names with equally many parameters are told by their bytes
(`Fingerprint.decodable`). Nothing is asked of the context: read from the right, the operands stop
at a zero byte, which is the one behind the context, since the bytes of an operand end in a mark.
Names that are generated are identifiers, and identifiers are safe.

The bytes of a number are those of its bits. Not all bit patterns are told apart as numbers, so the
same is said of fingerprints in which bit patterns stand for numbers.
-/

namespace MipModel

section Numbers

variable {α β : Type}

/-- The polynomial with other coefficients in the same terms. -/
def Polynomial.withCoefficients (g : α → β) (p : Polynomial α) : Polynomial β :=
  ⟨⟨p.toList.map fun t => (t.1, g t.2)⟩⟩

/-- The fingerprint with other numbers in the same places. -/
def Fingerprint.withNumbers (g : α → β) (f : Fingerprint α) : Fingerprint β :=
  ⟨f.construct, f.context, f.operands.map (Polynomial.withCoefficients g), f.parameters.map g⟩

end Numbers

namespace Fingerprint

section Safe

/-- The bytes that separate the parts of a fingerprint. -/
def Reserved (b : UInt8) : Prop := b = 0 ∨ Delimits b

def Safe (name : String) : Prop := Lacks Reserved name

instance (name : String) : Decidable (Safe name) :=
  inferInstanceAs (Decidable (∀ b ∈ textBytes name, ¬(b = 0 ∨ b = 0x2A ∨ b = 0x3B ∨ b = 1)))

/-- Letters, digits and underscores are written as single bytes, none of which is reserved. -/
theorem safe_of_plain {s : String} (h : Identifier.Plain s) : Safe s := by
  intro b member reserved
  rw [textBytes_eq] at member
  obtain ⟨c, occurs, member⟩ := List.mem_flatMap.mp member
  have codes := h.codes occurs
  have single : b = UInt8.ofNat c.toNat := by
    have ascii : c.toNat ≤ 127 := by omega
    simpa [String.utf8EncodeChar, ascii] using member
  have value : b.toNat = c.toNat := by
    rw [single, UInt8.toNat_ofNat', Nat.mod_eq_of_lt (by omega)]
  obtain rfl | rfl | rfl | rfl := reserved <;> simp at value <;> omega

end Safe

section Decoding

variable {α : Type} {number : α → List UInt8} {width : Nat} {f f' : Fingerprint α}

def Over (S : String → Prop) (f : Fingerprint α) : Prop := ∀ p ∈ f.operands, p.Over S

theorem over_iff_occurrences {S : String → Prop} :
    f.Over S ↔ ∀ x ∈ f.operands.flatMap Polynomial.occurrences, S x := by
  simp only [Over, Polynomial.over_iff_occurrences, List.mem_flatMap]
  grind

/-- The bytes of a fingerprint over safe names tell everything once it is known how many parameters
there are. -/
theorem eq_of_code_eq_of_safe (fixed : FixedWidth number width) (positive : 0 < width)
    (safe : f.Over Safe) (safe' : f'.Over Safe)
    (count : f.parameters.length = f'.parameters.length) (same : f.code number = f'.code number) :
    f = f' := by
  have construct := construct_eq_of_code_eq same
  rw [code, code, construct] at same
  have same := List.tail_eq_of_cons_eq (List.append_cancel_left same)
  -- The zero byte behind the context belongs to what stands in front of the operands.
  rw [← List.singleton_append, ← List.append_assoc, ← List.singleton_append (l := f'.tail number),
    ← List.append_assoc] at same
  have zero (context : String) : EndsIn (fun b => ((Reserved b ∧ b ≠ 0x2A) ∧ b ≠ 0x3B) ∧ b ≠ 1)
      (textBytes context ++ [0]) :=
    endsIn_concat.mpr ⟨⟨⟨.inl rfl, by decide⟩, by decide⟩, by decide⟩
  obtain ⟨contexts, operands, parameters⟩ := tail_told fixed (.inr (.inl rfl))
    (.inr (.inr (.inl rfl))) (.inr (.inr (.inr rfl))) (zero _) (zero _) safe safe' count same
  have context := textBytes_injective (List.append_cancel_right contexts)
  exact eq_of_parts construct context operands (fixed.flatMap_injective positive parameters)

/-- Numbers can be replaced before they are written. -/
theorem code_withNumbers {β : Type} (g : β → α) (f : Fingerprint β) :
    (f.withNumbers g).code number = f.code fun x => number (g x) := by
  simp [code, tail, closing, polynomialCode, withNumbers, Polynomial.withCoefficients,
    Polynomial.toList, List.flatMap_map]

end Decoding

/-- Equal bytes come from equal fingerprints if names are safe and there are equally many parameters,
both for numbers and for the bit patterns that are written for them. All names of variables that are
generated, those of auxiliaries and their switches included, are safe. -/
theorem decodable :
    (∀ f f' : Fingerprint Float, f.Over Safe → f'.Over Safe →
      f.parameters.length = f'.parameters.length → f.bytes = f'.bytes → f = f') ∧
    (∀ f f' : Fingerprint UInt64, f.Over Safe → f'.Over Safe →
      f.parameters.length = f'.parameters.length → f.code wordBytes = f'.code wordBytes →
        f = f') ∧
    (∀ f : Fingerprint Float, f.bytes = (f.withNumbers Float.toBits).code wordBytes) ∧
    (∀ (n : Nat) (label : String), Safe (Identifier.numbered "v" n label)) ∧
    ∀ (g : Gadget (Polynomial Float) Float) (context : String),
      ∀ name ∈ (g.vars (g.nameIn context)).map Prod.fst, Safe name := by
  refine ⟨fun f f' safe safe' count same => ?_, fun f f' safe safe' count same => ?_,
    fun f => ?_, fun n label => ?_, fun g context name member => ?_⟩
  · rw [bytes_eq_code, bytes_eq_code] at same
    exact eq_of_code_eq_of_safe fixedWidth_numberBytes (by decide) safe safe' count same
  · exact eq_of_code_eq_of_safe fixedWidth_wordBytes (by decide) safe safe' count same
  · rw [bytes_eq_code, code_withNumbers]
    rfl
  · exact safe_of_plain (Identifier.plain_of_isName (Identifier.isName_numbered (by decide) n label))
  · exact safe_of_plain (Identifier.plain_of_isName (Gadget.isName_of_mem_vars member))

/-- The bytes of a coefficient can be those that separate parts: the order of two operands is told
nevertheless. Bit patterns of undefined numbers are told apart as well. -/
theorem order_of_operands_told :
    let p : Polynomial Float := ⟨⟨[(.var "v00000_x", .ofBits 0x013B2A003B2A0100)]⟩⟩
    let f : Fingerprint Float := ⟨.max, "cost;*", [.zero, p], [1]⟩
    let f' : Fingerprint Float := ⟨.max, "cost;*", [p, .zero], [1]⟩
    let undefined (bits : UInt64) : Fingerprint UInt64 :=
      ⟨.abs, "", [⟨⟨[(.var "v00000_x", bits)]⟩⟩], []⟩
    f.bytes ≠ f'.bytes ∧
      (undefined 0x7FF8000000000001).code wordBytes ≠
        (undefined 0x7FF8000000000002).code wordBytes ∧
      Safe "v00000_x" := by
  intro p f f' undefined
  obtain ⟨numbers, patterns, -, numbered, -⟩ := decodable
  have safe : f.Over Safe := over_iff_occurrences.mpr (by decide +kernel)
  have safe' : f'.Over Safe := over_iff_occurrences.mpr (by decide +kernel)
  have apart : f ≠ f' := by decide +kernel
  have undefinedSafe (bits : UInt64) : (undefined bits).Over Safe :=
    over_iff_occurrences.mpr (by decide +kernel : ∀ x ∈ ["v00000_x"], Safe x)
  have undefinedApart : undefined 0x7FF8000000000001 ≠ undefined 0x7FF8000000000002 := by
    decide +kernel
  exact ⟨fun same => apart (numbers f f' safe safe' rfl same),
    fun same => undefinedApart (patterns _ _ (undefinedSafe _) (undefinedSafe _) rfl same),
    numbered 0 "x"⟩

end Fingerprint
end MipModel
