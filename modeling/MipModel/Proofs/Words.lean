import Mathlib

/-!
# Words and lines

A line that is put together from words with single blanks between them can be taken apart again, and
so can a text that is put together from lines, as long as no word has a blank and no line a line
break in it. When every member of a list is spelled by words that tell it, and what follows the list
cannot be mistaken for a member, then the words tell the list as well (`flatMap_injective`).
-/

namespace MipModel

/-- A text without blanks and line breaks. -/
def Solid (s : String) : Prop := ∀ c ∈ s.toList, c ≠ ' ' ∧ c ≠ '\n'

theorem Solid.append {s t : String} (h : Solid s) (h' : Solid t) : Solid (s ++ t) := by
  intro c member
  rw [String.toList_append] at member
  exact (List.mem_append.mp member).elim (h c) (h' c)

/-- A line consists of words with single blanks between them. -/
structure Spells (line : String) (words : List String) : Prop where
  unbroken : '\n' ∉ line.toList
  words : line.toList.splitOn ' ' = words.map String.toList

section Lines

variable {s t u w : String} {ws us : List String}

theorem Solid.spells (h : Solid w) : Spells w [w] where
  unbroken member := (h _ member).2 rfl
  words := List.splitOn_eq_singleton fun member => (h _ member).1 rfl

/-- The words of a line are determined. -/
theorem Spells.unique (h : Spells s ws) (h' : Spells s us) : ws = us :=
  List.map_injective_iff.mpr (fun _ _ => String.toList_inj.mp) (h.words.symm.trans h'.words)

theorem splitOn_blank (s t : String) :
    (s ++ " " ++ t).toList.splitOn ' ' = s.toList.splitOn ' ' ++ t.toList.splitOn ' ' := by
  have blank : (s ++ " " ++ t).toList = s.toList ++ ' ' :: t.toList := by simp
  rw [blank, List.splitOn_append_cons_self]

theorem Spells.append (h : Spells s ws) (h' : Spells t us) :
    Spells (s ++ " " ++ t) (ws ++ us) where
  unbroken := by
    simp only [String.toList_append, List.mem_append, not_or]
    exact ⟨⟨h.unbroken, by simp⟩, h'.unbroken⟩
  words := by rw [splitOn_blank, h.words, h'.words, List.map_append]

theorem Spells.intercalate {ss : List String} {wss : List (List String)} (nonempty : ss ≠ [])
    (h : List.Forall₂ Spells ss wss) : Spells (" ".intercalate ss) wss.flatten := by
  induction h with
  | nil => exact absurd rfl nonempty
  | @cons s ws ss wss first rest ih =>
      cases rest with
      | nil => simpa using first
      | cons second others =>
          have remaining := ih (List.cons_ne_nil _ _)
          rw [String.intercalate_cons_cons]
          exact first.append remaining

/-- The last word of a line can be split off, whatever stands before it. -/
theorem last_word_injective (h : Solid w) (h' : Solid u) (same : s ++ " " ++ w = t ++ " " ++ u) :
    s = t ∧ w = u := by
  have words := congrArg (fun line => line.toList.splitOn ' ') same
  simp only [splitOn_blank, h.spells.words, h'.spells.words] at words
  obtain rfl : w = u := by
    simpa [String.toList_inj] using (List.append_inj' words rfl).2
  exact ⟨by simpa using same, rfl⟩

/-- The first word of a line can be split off, whatever stands behind it. -/
theorem first_word_injective (h : Solid w) (h' : Solid u) (same : w ++ " " ++ s = u ++ " " ++ t) :
    w = u ∧ s = t := by
  have words := congrArg (fun line => line.toList.splitOn ' ') same
  simp only [splitOn_blank, h.spells.words, h'.spells.words] at words
  obtain rfl : w = u := by
    simpa [String.toList_inj] using (List.append_inj words rfl).1
  exact ⟨rfl, by simpa using same⟩

/-- The lines of a text that ends with a line break are determined. -/
theorem lines_injective {lines lines' : List String} (h : ∀ l ∈ lines, '\n' ∉ l.toList)
    (h' : ∀ l ∈ lines', '\n' ∉ l.toList)
    (same : String.join (lines.map fun line => line ++ "\n") =
      String.join (lines'.map fun line => line ++ "\n")) : lines = lines' := by
  have split {lines : List String} (h : ∀ l ∈ lines, '\n' ∉ l.toList) :
      (String.join (lines.map fun line => line ++ "\n")).toList.splitOn '\n' =
        lines.map String.toList ++ [[]] := by
    induction lines with
    | nil => simp
    | cons line lines ih =>
        obtain ⟨first, rest⟩ := List.forall_mem_cons.mp h
        have text : (String.join ((line :: lines).map fun line => line ++ "\n")).toList =
            line.toList ++ '\n' :: (String.join (lines.map fun line => line ++ "\n")).toList := by
          simp [String.join_cons]
        rw [text, List.splitOn_append_cons_self, List.splitOn_eq_singleton first, ih rest]
        rfl
  have parts := split h
  rw [same, split h'] at parts
  exact (List.map_injective_iff.mpr (fun _ _ => String.toList_inj.mp)
    (List.append_cancel_right parts)).symm

end Lines

section Codes

variable {β : Type} {code : β → List String}

/-- A list is told by the words of its members when a member is told by what starts with its words,
and what follows the list does not start with the words of a member. -/
theorem flatMap_injective {xs ys : List β} {rest rest' : List String}
    (read : ∀ x ∈ xs, ∀ y ∈ ys, ∀ r r', code x ++ r = code y ++ r' → x = y ∧ r = r')
    (stop : ∀ y ∈ ys, ∀ r, rest ≠ code y ++ r) (stop' : ∀ x ∈ xs, ∀ r, rest' ≠ code x ++ r)
    (same : xs.flatMap code ++ rest = ys.flatMap code ++ rest') : xs = ys ∧ rest = rest' := by
  induction xs generalizing ys with
  | nil =>
      cases ys with
      | nil => exact ⟨rfl, same⟩
      | cons y ys =>
          rw [List.flatMap_cons, List.append_assoc] at same
          exact absurd same (stop y List.mem_cons_self _)
  | cons x xs ih =>
      rw [List.flatMap_cons, List.append_assoc] at same
      cases ys with
      | nil => exact absurd same.symm (stop' x List.mem_cons_self _)
      | cons y ys =>
          rw [List.flatMap_cons, List.append_assoc] at same
          obtain ⟨rfl, remaining⟩ := read x List.mem_cons_self y List.mem_cons_self _ _ same
          obtain ⟨rfl, rests⟩ := ih
            (fun a first b second => read a (List.mem_cons_of_mem _ first) b
              (List.mem_cons_of_mem _ second))
            (fun b member => stop b (List.mem_cons_of_mem _ member))
            (fun a member => stop' a (List.mem_cons_of_mem _ member)) remaining
          exact ⟨rfl, rests⟩

/-- Lists with the same texts have the same contents, as far as the text of a member tells them. -/
theorem map_eq_of_map_eq {γ δ : Type} {f : β → γ} {g : β → δ} {xs ys : List β}
    (tells : ∀ x ∈ xs, ∀ y ∈ ys, f x = f y → g x = g y) (same : xs.map f = ys.map f) :
    xs.map g = ys.map g := by
  induction xs generalizing ys with
  | nil => rw [List.map_eq_nil_iff.mp same.symm]
  | cons x xs ih =>
      cases ys with
      | nil => cases same
      | cons y ys =>
          obtain ⟨first, rest⟩ := List.cons.inj same
          rw [List.map_cons, List.map_cons, tells x List.mem_cons_self y List.mem_cons_self first,
            ih (fun a member b member' => tells a (List.mem_cons_of_mem _ member) b
              (List.mem_cons_of_mem _ member')) rest]

end Codes

end MipModel
