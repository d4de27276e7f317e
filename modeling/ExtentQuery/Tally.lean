/-!
# Tallies

A tally counts how often each kind of event has happened.  Kinds that have not happened
take no space.
-/

namespace ExtentQuery

/-- How often each of the events of a type has happened. -/
structure Tally (κ : Type) where
  entries : List (κ × Nat)
deriving Inhabited

namespace Tally

variable {κ : Type} [DecidableEq κ]

/-- Nothing has happened. -/
def empty : Tally κ := ⟨[]⟩

/-- How often an event has happened. -/
def count (tally : Tally κ) (event : κ) : Nat :=
  (tally.entries.lookup event).getD 0

/-- Adds one to the entry of an event, or a new entry at the end. -/
def increment (event : κ) : List (κ × Nat) → List (κ × Nat)
  | [] => [(event, 1)]
  | (other, n) :: rest =>
    if event == other then (other, n + 1) :: rest else (other, n) :: increment event rest

/-- Counts one more event. -/
def add (tally : Tally κ) (event : κ) : Tally κ :=
  ⟨increment event tally.entries⟩

theorem lookup_increment_self (event : κ) (entries : List (κ × Nat)) :
    (increment event entries).lookup event = some ((entries.lookup event).getD 0 + 1) := by
  induction entries with
  | nil => simp [increment]
  | cons entry rest ih =>
    obtain ⟨other, n⟩ := entry
    by_cases h : event = other
    · simp [increment, h]
    · have h' : (event == other) = false := by simpa using h
      simp [increment, h', List.lookup_cons, ih]

theorem lookup_increment_of_ne {event other : κ} (h : other ≠ event)
    (entries : List (κ × Nat)) :
    (increment event entries).lookup other = entries.lookup other := by
  induction entries with
  | nil => simp [increment, List.lookup_cons, beq_eq_false_iff_ne.mpr h]
  | cons entry rest ih =>
    obtain ⟨first, n⟩ := entry
    by_cases same : event = first
    · have h' : (other == first) = false := beq_eq_false_iff_ne.mpr (same ▸ h)
      simp [increment, same, List.lookup_cons, h']
    · have h' : (event == first) = false := by simpa using same
      simp only [increment, h', Bool.false_eq_true, if_false, List.lookup_cons]
      cases other == first <;> simp [ih]

/-- The event that was counted has happened once more. -/
@[simp] theorem count_add_self (tally : Tally κ) (event : κ) :
    (tally.add event).count event = tally.count event + 1 := by
  simp [count, add, lookup_increment_self]

/-- The other events have not. -/
theorem count_add_of_ne (tally : Tally κ) {event other : κ} (h : other ≠ event) :
    (tally.add event).count other = tally.count other := by
  simp [count, add, lookup_increment_of_ne h]

end Tally

end ExtentQuery
