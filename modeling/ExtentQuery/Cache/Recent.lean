/-!
# Bounded tables that forget what was not used

A `Recent` table holds a bounded number of entries and forgets the one that was not used
for the longest time.  An entry is used when it is written and when it is looked up
successfully.  The entries are a list with the most recently used one in front, so
forgetting is cutting the list off at its capacity.
-/

namespace ExtentQuery.Cache

/-- A table of at most `capacity` entries, the most recently used one in front. -/
structure Recent (α : Type) where
  capacity : Nat
  entries : List (String × α)
  length_le : entries.length ≤ capacity

namespace Recent

variable {α : Type}

/-- A table without entries. -/
def empty (capacity : Nat) : Recent α := ⟨capacity, [], Nat.zero_le _⟩

instance : Inhabited (Recent α) := ⟨empty 0⟩

/-- The entry under a key. -/
def get? (table : Recent α) (key : String) : Option α :=
  table.entries.lookup key

/-- Writes an entry, which becomes the most recently used one. -/
def insert (table : Recent α) (key : String) (value : α) : Recent α where
  capacity := table.capacity
  entries := ((key, value) :: table.entries.filter (·.1 != key)).take table.capacity
  length_le := List.length_take_le _ _

/-- Marks the entry under a key as the most recently used one. -/
def touch (table : Recent α) (key : String) : Recent α :=
  match table.get? key with
  | some value => table.insert key value
  | none => table

/-- Number of entries. -/
def size (table : Recent α) : Nat := table.entries.length

/-- Forgets every entry. -/
def clear (table : Recent α) : Recent α := empty table.capacity

theorem size_le (table : Recent α) : table.size ≤ table.capacity := table.length_le

@[simp] theorem get?_empty (capacity : Nat) (key : String) :
    (empty capacity : Recent α).get? key = none := rfl

/-- What was just written is there, if there is room for anything. -/
theorem get?_insert_self (table : Recent α) (key : String) (value : α)
    (roomy : 0 < table.capacity) : (table.insert key value).get? key = some value := by
  obtain ⟨n, h⟩ := Nat.exists_eq_succ_of_ne_zero (Nat.ne_of_gt roomy)
  simp [get?, insert, h]

end Recent

end ExtentQuery.Cache
