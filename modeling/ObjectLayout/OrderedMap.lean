/-! Finite maps that remember the order of first insertion. Storing under a key that is already
there replaces the value and keeps the key's place. -/
namespace ObjectLayout

structure OrderedMap (κ : Type) (α : Type) where
  entries : List (κ × α) := []
  deriving DecidableEq, Repr

namespace OrderedMap

variable {κ α β : Type} [DecidableEq κ]

def empty : OrderedMap κ α := ⟨[]⟩

def find? (map : OrderedMap κ α) (key : κ) : Option α := map.entries.lookup key

def contains (map : OrderedMap κ α) (key : κ) : Bool := (map.find? key).isSome

def keys (map : OrderedMap κ α) : List κ := map.entries.map (·.1)

def insertInto : List (κ × α) → κ → α → List (κ × α)
  | [], key, value => [(key, value)]
  | (k, v) :: rest, key, value =>
    if k = key then (k, value) :: rest else (k, v) :: insertInto rest key value

def insert (map : OrderedMap κ α) (key : κ) (value : α) : OrderedMap κ α :=
  ⟨insertInto map.entries key value⟩

def mapValues (map : OrderedMap κ α) (f : α → β) : OrderedMap κ β :=
  ⟨map.entries.map fun (key, value) => (key, f value)⟩

def mapValuesM {m : Type → Type} [Monad m] (map : OrderedMap κ α) (f : α → m β) :
    m (OrderedMap κ β) := do
  return ⟨← map.entries.mapM fun (key, value) => return (key, ← f value)⟩

def ofList (entries : List (κ × α)) : OrderedMap κ α :=
  entries.foldl (fun map (key, value) => map.insert key value) empty

theorem find?_insert_self (map : OrderedMap κ α) (key : κ) (value : α) :
    (map.insert key value).find? key = some value := by
  obtain ⟨entries⟩ := map
  simp only [insert, find?]
  induction entries with
  | nil => exact List.lookup_cons_self
  | cons entry rest ih =>
    obtain ⟨k, v⟩ := entry
    rw [insertInto]
    split
    · rename_i same
      subst same
      exact List.lookup_cons_self
    · rename_i differs
      have other : (key == k) = false := by simpa using fun h => differs h.symm
      rw [List.lookup_cons, other]
      exact ih

theorem find?_insert_of_ne (map : OrderedMap κ α) {key other : κ} (value : α) (ne : other ≠ key) :
    (map.insert key value).find? other = map.find? other := by
  obtain ⟨entries⟩ := map
  simp only [insert, find?]
  induction entries with
  | nil =>
    have differs : (other == key) = false := by simpa using ne
    rw [insertInto, List.lookup_cons, differs]
  | cons entry rest ih =>
    obtain ⟨k, v⟩ := entry
    rw [insertInto]
    split
    · rename_i same
      subst same
      have differs : (other == k) = false := by simpa using ne
      rw [List.lookup_cons, List.lookup_cons, differs]
    · rw [List.lookup_cons, List.lookup_cons, ih]

theorem keys_insert_of_contains (map : OrderedMap κ α) {key : κ} (value : α)
    (known : key ∈ map.keys) : (map.insert key value).keys = map.keys := by
  obtain ⟨entries⟩ := map
  simp only [insert, keys] at *
  induction entries with
  | nil => simp at known
  | cons entry rest ih =>
    obtain ⟨k, v⟩ := entry
    by_cases same : k = key
    · simp [insertInto, same]
    · have inside : key ∈ rest.map (·.1) := by
        rcases List.mem_cons.mp known with here | there
        · exact absurd here.symm same
        · exact there
      simp [insertInto, same, ih inside]

theorem keys_insert_of_not_mem (map : OrderedMap κ α) {key : κ} (value : α)
    (fresh : key ∉ map.keys) : (map.insert key value).keys = map.keys ++ [key] := by
  obtain ⟨entries⟩ := map
  simp only [insert, keys] at *
  induction entries with
  | nil => simp [insertInto]
  | cons entry rest ih =>
    obtain ⟨k, v⟩ := entry
    simp only [List.map_cons, List.mem_cons, not_or] at fresh
    have differs : ¬ k = key := fun h => fresh.1 h.symm
    simp [insertInto, differs, ih fresh.2]

end OrderedMap

end ObjectLayout
