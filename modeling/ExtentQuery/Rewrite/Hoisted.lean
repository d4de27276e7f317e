import ExtentQuery.SortStep

/-!
# Hoisted sort steps

Rewriting takes sort steps out of a query and keeps them in a list of their own.  The
list holds four steps at most; further steps stay in the query.

**Order.**  A step that is taken out later goes to the front.  Steps are met from the
root of a query downwards, so the front of the list is the innermost step, and the list
is in the order in which the steps have to be applied.
-/

namespace ExtentQuery.Rewrite

/-- The most steps that are taken out of one query. -/
def maxHoisted : Nat := 4

/-- Sort steps taken out of a query, in the order of application. -/
structure Hoisted where
  orders : List SortStep
  length_le : orders.length ≤ maxHoisted
deriving DecidableEq

namespace Hoisted

/-- No steps. -/
def empty : Hoisted := ⟨[], Nat.zero_le _⟩

instance : Inhabited Hoisted := ⟨empty⟩

/-- How many more steps can be taken out. -/
def room (hoisted : Hoisted) : Nat :=
  maxHoisted - hoisted.orders.length

/-- Whether no more steps can be taken out. -/
def isFull (hoisted : Hoisted) : Bool :=
  maxHoisted ≤ hoisted.orders.length

/-- Puts a step in front, unless the list is full. -/
def push (hoisted : Hoisted) (order : SortStep) : Option Hoisted :=
  if h : hoisted.orders.length < maxHoisted then
    some ⟨order :: hoisted.orders, h⟩
  else none

/-- Whether a query with these steps may be remembered. -/
def cacheable (hoisted : Hoisted) : Bool :=
  hoisted.orders.all SortStep.cacheable

/-- Taking out a step uses up one place. -/
theorem room_lt_of_push {hoisted pushed : Hoisted} {order : SortStep}
    (h : hoisted.push order = some pushed) : pushed.room < hoisted.room := by
  unfold push at h
  split at h
  · cases h
    simp only [room, List.length_cons]
    omega
  · cases h

/-- A step can be taken out exactly while the list is not full. -/
theorem push_eq_none_iff {hoisted : Hoisted} {order : SortStep} :
    hoisted.push order = none ↔ hoisted.isFull = true := by
  unfold push isFull
  split <;> simp <;> omega

end Hoisted

end ExtentQuery.Rewrite
