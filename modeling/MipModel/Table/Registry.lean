/-!
# Registries

A registry names its entries and keeps them in the order in which they were registered. A new name
goes to the end; a name that is registered already keeps its place and takes the new value. As long
as only new names are registered, an earlier state of a registry is a prefix of every later one, and
cutting it back to an earlier size restores that state (`truncate_size_of_prefix`).
-/

namespace MipModel

/-- Named entries in order of registration. -/
structure Registry (β : Type) where
  entries : List (String × β)
  deriving DecidableEq, Repr

namespace Registry

variable {β : Type}

def empty : Registry β := ⟨[]⟩

instance instEmptyCollection : EmptyCollection (Registry β) := ⟨empty⟩

instance instInhabited : Inhabited (Registry β) := ⟨empty⟩

def size (r : Registry β) : Nat := r.entries.length

def names (r : Registry β) : List String := r.entries.map Prod.fst

def values (r : Registry β) : List β := r.entries.map Prod.snd

def find? (r : Registry β) (name : String) : Option β :=
  (r.entries.find? fun e => e.1 = name).map Prod.snd

def contains (r : Registry β) (name : String) : Bool := (r.find? name).isSome

/-- Register a value under a new name at the end. -/
def push (r : Registry β) (name : String) (value : β) : Registry β :=
  ⟨r.entries ++ [(name, value)]⟩

/-- Give a registered name another value, in its place. -/
def replace (r : Registry β) (name : String) (value : β) : Registry β :=
  ⟨r.entries.map fun e => if e.1 = name then (name, value) else e⟩

/-- Register a value under a name, which may be new or not. -/
def insert (r : Registry β) (name : String) (value : β) : Registry β :=
  if r.contains name then r.replace name value else r.push name value

/-- Cut the registry back to its first `n` entries. -/
def truncate (r : Registry β) (n : Nat) : Registry β := ⟨r.entries.take n⟩

@[simp] theorem entries_empty : (∅ : Registry β).entries = [] := rfl

@[simp] theorem names_empty : (∅ : Registry β).names = [] := rfl

@[simp] theorem values_empty : (∅ : Registry β).values = [] := rfl

@[simp] theorem entries_push (r : Registry β) (name : String) (value : β) :
    (r.push name value).entries = r.entries ++ [(name, value)] := rfl

@[simp] theorem names_push (r : Registry β) (name : String) (value : β) :
    (r.push name value).names = r.names ++ [name] := by
  simp [names]

@[simp] theorem values_push (r : Registry β) (name : String) (value : β) :
    (r.push name value).values = r.values ++ [value] := by
  simp [values]

@[simp] theorem entries_truncate (r : Registry β) (n : Nat) :
    (r.truncate n).entries = r.entries.take n := rfl

@[simp] theorem size_push (r : Registry β) (name : String) (value : β) :
    (r.push name value).size = r.size + 1 := by
  simp [size]

theorem contains_eq_true_iff (r : Registry β) (name : String) :
    r.contains name = true ↔ name ∈ r.names := by
  simp [contains, find?, names, List.find?_isSome]

/-- A new name gets the value it is registered with. -/
@[simp] theorem find?_push_self {r : Registry β} {name : String} (h : r.contains name = false)
    (value : β) : (r.push name value).find? name = some value := by
  have none : r.entries.find? (fun e => e.1 = name) = none := by
    simpa [contains, find?] using h
  simp [find?, List.find?_append, none]

@[simp] theorem insert_of_new {r : Registry β} {name : String} (h : r.contains name = false)
    (value : β) :
    r.insert name value = r.push name value := by
  simp [insert, h]

/-- Cutting back undoes any growth at the end. -/
theorem truncate_size_of_prefix {r s : Registry β} (h : r.entries <+: s.entries) :
    s.truncate r.size = r := by
  obtain ⟨rest, hrest⟩ := h
  simp [truncate, size, ← hrest]

end Registry
end MipModel
