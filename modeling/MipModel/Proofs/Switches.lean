import MipModel.Linearization.Naming
import MipModel.Proofs.Compilation
import MipModel.Proofs.Numbering

/-!
# Names of switches

An auxiliary and its switches are told apart by what stands after the last underscore: the digest of
the fingerprint, or the mark of the switch. A digest is written in pairs of hexadecimal digits, so
it is neither the single letter that marks the switch of a case distinction, nor does it start like
the marks of segments. Hence different auxiliaries share no variable (`keepsApart`), whatever the
digests are.
-/

namespace MipModel

/-- Gadgets whose variables have different names share no variable, switches included. -/
def Naming.KeepsApart (α : Type) [Naming α] : Prop :=
  ∀ (g h : Gadget (Polynomial α) α) (context : String), g.nameIn context ≠ h.nameIn context →
    List.Disjoint ((g.vars (g.nameIn context)).map Prod.fst)
      ((h.vars (h.nameIn context)).map Prod.fst)

/-- The marks of switches. -/
def IsMark (mark : String) : Prop := mark = "c" ∨ ∃ n : Nat, mark = "s" ++ toString n

namespace Identifier

/-- What stands before and after the last underscore can be read off a name. -/
theorem append_inj_of_underscore {a b u v : String} (hu : '_' ∉ u.toList) (hv : '_' ∉ v.toList)
    (same : a ++ "_" ++ u = b ++ "_" ++ v) : a = b ∧ u = v := by
  have last {x w : String} (hw : '_' ∉ w.toList) :
      (x ++ "_" ++ w).toList.reverse.takeWhile (· ≠ '_') = w.toList.reverse := by
    have before : ∀ c ∈ w.toList.reverse, decide (c ≠ '_') = true := by
      intro c hc
      have : c ≠ '_' := fun equal => hw (equal ▸ List.mem_reverse.mp hc)
      simpa using this
    simp only [String.toList_append, List.reverse_append]
    rw [List.takeWhile_append_of_pos before]
    simp
  have ends : u = v := by
    have := last (x := a) hu
    rw [same, last hv] at this
    exact String.toList_inj.mp (List.reverse_injective this.symm)
  subst ends
  exact ⟨by simpa using same, rfl⟩

end Identifier

theorem underscore_notMem_mark {mark : String} (h : IsMark mark) : '_' ∉ mark.toList := by
  obtain rfl | ⟨n, rfl⟩ := h
  · decide
  · simp [Nat.underscore_not_in_toDigits]

/-- Every variable of a gadget is named like the gadget, or is marked as a switch. -/
theorem Gadget.name_of_mem_vars {ω α : Type} {g : Gadget ω α} {name x : String}
    (h : x ∈ (g.vars name).map Prod.fst) :
    x = name ∨ ∃ mark, IsMark mark ∧ x = name ++ "_" ++ mark := by
  simp only [vars, List.map_cons, List.map_map, List.mem_cons, List.mem_map, Function.comp_apply,
    exists_eq_right] at h
  refine h.imp_right fun switch => ?_
  cases g with
  | ifThenElse c t f =>
      obtain rfl := List.mem_singleton.mp switch
      exact ⟨"c", .inl rfl, by
        rw [show "_c" = "_" ++ "c" from rfl, String.append_assoc]⟩
  | piecewise e shape =>
      obtain ⟨n, -, rfl⟩ := List.mem_map.mp switch
      exact ⟨"s" ++ toString n, .inr ⟨n, rfl⟩, by
        rw [show "_s" = "_" ++ "s" from rfl]
        simp only [String.append_assoc]⟩
  | _ => cases switch

namespace Fingerprint

theorem exists_name_eq (f : Fingerprint Float) : ∃ stem, name f = stem ++ "_" ++ digest f := by
  unfold name Identifier.join
  dsimp only
  split
  · exact ⟨f.construct.name, by simp⟩
  · exact ⟨f.construct.name ++ "_" ++ Identifier.sanitize f.context, by simp [String.append_assoc]⟩

theorem hexadecimal_of_mem_digest {f : Fingerprint Float} {c : Char} (h : c ∈ (digest f).toList) :
    c ∈ "0123456789abcdef".toList := by
  have digit : ∀ n < 16, Nat.digitChar n ∈ "0123456789abcdef".toList := by decide
  simp only [digest, Sha256.hex, String.toList_ofList, List.mem_flatMap] at h
  obtain ⟨b, -, member⟩ := h
  have := b.toNat_lt
  obtain rfl | rfl : c = Nat.digitChar (b.toNat / 16) ∨ c = Nat.digitChar (b.toNat % 16) := by
    simpa using member
  · exact digit _ (by omega)
  · exact digit _ (by omega)

/-- Digests are no marks of switches. -/
theorem not_isMark_digest (f : Fingerprint Float) : ¬ IsMark (digest f) := by
  rintro (same | ⟨n, same⟩)
  · have even : 2 ∣ (digest f).length := by
      simp [digest, Sha256.hex, List.length_flatMap]
    rw [same] at even
    exact absurd even (by decide)
  · have : 's' ∈ (digest f).toList := by
      simp [same]
    exact absurd (hexadecimal_of_mem_digest this) (by decide)

theorem underscore_notMem_digest (f : Fingerprint Float) : '_' ∉ (digest f).toList :=
  fun h => absurd (hexadecimal_of_mem_digest h) (by decide)

/-- No auxiliary is named like a switch. -/
theorem name_ne_switch (f : Fingerprint Float) {stem mark : String} (h : IsMark mark) :
    name f ≠ stem ++ "_" ++ mark := by
  obtain ⟨stem', same⟩ := exists_name_eq f
  rw [same]
  intro equal
  obtain ⟨-, rfl⟩ := Identifier.append_inj_of_underscore (underscore_notMem_digest f)
    (underscore_notMem_mark h) equal
  exact not_isMark_digest f h

/-- Different auxiliaries have no variable in common. -/
theorem keepsApart : Naming.KeepsApart Float := by
  intro g h context different x hg hh
  obtain rfl | ⟨mark, isMark, rfl⟩ := Gadget.name_of_mem_vars hg
  · obtain same | ⟨mark, isMark, same⟩ := Gadget.name_of_mem_vars hh
    · exact different same
    · exact name_ne_switch _ isMark same
  · obtain same | ⟨mark', isMark', same⟩ := Gadget.name_of_mem_vars hh
    · exact name_ne_switch _ isMark same.symm
    · exact different (Identifier.append_inj_of_underscore (underscore_notMem_mark isMark)
        (underscore_notMem_mark isMark') same).1

end Fingerprint
end MipModel
