/-!
# Sorted tables

A finite map that lists its entries in ascending key order. Two tables built in different orders
from the same associations are therefore equal, and iteration visits the keys in a fixed order.

What an operation does to a table is said by what it does to `find?`; the statements below hold of
every list of entries, sorted or not.
-/

namespace MipModel

/-- A finite map from keys to values, listed in key order. -/
structure SortedTable (κ β : Type) where
  entries : List (κ × β)
  deriving DecidableEq, Repr

namespace SortedTable

variable {κ β : Type}

def empty : SortedTable κ β := ⟨[]⟩

instance instEmptyCollection : EmptyCollection (SortedTable κ β) := ⟨empty⟩

instance instInhabited : Inhabited (SortedTable κ β) := ⟨empty⟩

def keys (t : SortedTable κ β) : List κ := t.entries.map Prod.fst

def values (t : SortedTable κ β) : List β := t.entries.map Prod.snd

def size (t : SortedTable κ β) : Nat := t.entries.length

def isEmpty (t : SortedTable κ β) : Bool := t.entries.isEmpty

@[simp] theorem entries_empty : (∅ : SortedTable κ β).entries = [] := rfl

section Keys

variable [DecidableEq κ]

def find? (t : SortedTable κ β) (k : κ) : Option β :=
  (t.entries.find? fun e => e.1 = k).map Prod.snd

def contains (t : SortedTable κ β) (k : κ) : Bool := (t.find? k).isSome

def erase (t : SortedTable κ β) (k : κ) : SortedTable κ β :=
  ⟨t.entries.filter fun e => e.1 ≠ k⟩

@[simp] theorem find?_empty (k : κ) : (∅ : SortedTable κ β).find? k = none := rfl

@[simp] theorem find?_cons (e : κ × β) (rest : List (κ × β)) (k : κ) :
    find? ⟨e :: rest⟩ k = if e.1 = k then some e.2 else find? ⟨rest⟩ k := by
  by_cases h : e.1 = k <;> simp [find?, h]

@[simp] theorem find?_erase_self (t : SortedTable κ β) (k : κ) : (t.erase k).find? k = none := by
  simp [find?, erase]

variable [LT κ] [DecidableLT κ]

/-- Put an association into a sorted list, in place of one with the same key. -/
def insertEntry (k : κ) (v : β) : List (κ × β) → List (κ × β)
  | [] => [(k, v)]
  | e :: rest =>
    if k = e.1 then (k, v) :: rest
    else if k < e.1 then (k, v) :: e :: rest
    else e :: insertEntry k v rest

/-- The table that maps `k` to `v` and everything else as before. -/
def insert (t : SortedTable κ β) (k : κ) (v : β) : SortedTable κ β :=
  ⟨insertEntry k v t.entries⟩

/-- The table of a list of associations; of two with the same key the later one counts. -/
def ofList (associations : List (κ × β)) : SortedTable κ β :=
  associations.foldl (fun t e => t.insert e.1 e.2) empty

theorem find?_insertEntry (k l : κ) (v : β) (entries : List (κ × β)) :
    find? ⟨insertEntry k v entries⟩ l = if k = l then some v else find? ⟨entries⟩ l := by
  induction entries with
  | nil => simp [insertEntry, find?_cons]
  | cons e rest ih =>
    by_cases hk : k = e.1
    · by_cases hl : k = l <;> simp_all [insertEntry, find?_cons]
    · by_cases hlt : k < e.1
      · simp [insertEntry, find?_cons, hk, hlt]
      · by_cases hl : k = l
        · subst hl
          simp [insertEntry, find?_cons, hk, hlt, ih, Ne.symm hk]
        · simp [insertEntry, find?_cons, hk, hlt, ih, hl]

@[simp] theorem find?_insert_self (t : SortedTable κ β) (k : κ) (v : β) :
    (t.insert k v).find? k = some v := by
  simp [insert, find?_insertEntry]

@[simp] theorem find?_insert_of_ne {k l : κ} (h : l ≠ k) (t : SortedTable κ β) (v : β) :
    (t.insert k v).find? l = t.find? l := by
  simp [insert, find?_insertEntry, Ne.symm h]

end Keys
end SortedTable
end MipModel
