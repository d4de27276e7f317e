import ExtentQuery.Cache.QueryCache
import ExtentQuery.Notice
import ExtentQuery.Store
import ExtentQuery.Tally

/-!
# What evaluation reads and changes

Answering a query reads the store, and it leaves traces: calls and work are counted,
optimized queries are remembered, notices are reported.  `State` holds all of it, and an
`Effect` is a computation that reads and changes a state and that may fault.

* `Call` — the calls that a backend counts;
* `Work` — the work that the engine counts;
* `State`, `Effect` — the state and the computations on it.

**A fault undoes nothing.**  What an effect changed before it faulted stays changed: a
call is counted even if it fails, and a query that was optimized before its evaluation
failed stays remembered.

**Stamps.**  Listings and selections are told apart by stamps, not by what they contain:
two selections with the same members are the same one only if one is a copy of the other.
A state hands out every stamp once (`freshStamp`).
-/

namespace ExtentQuery

open Rewrite (Optimized)

/-- The calls that a backend counts. -/
inductive Call where
  | all
  | equal
  /-- Any other look-up by a property or a link. -/
  | filter
  | inter
  | union
  | diff
  | concat
  | sort
  | orderByTargets
  | searchLinks
  | merge
  /-- The start of an iteration over a listing of the store. -/
  | iteration
deriving DecidableEq, Repr, Inhabited

/-- The work that the engine counts. -/
inductive Work where
  | optimization
  | instantiation
  | setOperation
  | memorySort
  | linkSort
  | merge
deriving DecidableEq, Repr, Inhabited

/-- What evaluation reads and changes. -/
structure State where
  store : Store
  calls : Tally Call
  work : Tally Work
  cache : Cache.QueryCache
  /-- The notices reported so far, the oldest one first. -/
  notices : List Notice
  /-- The next stamp to be handed out. -/
  nextStamp : Nat
  /-- The optimized queries of deferred selections, by their stamps. -/
  memo : List (Nat × Optimized)
deriving Inhabited

namespace State

/-- The state before anything is evaluated. -/
def initial (store : Store) (cache : Cache.QueryCache) : State :=
  { store, cache, calls := .empty, work := .empty, notices := [], nextStamp := 0, memo := [] }

end State

/-- A computation that reads and changes a state and that may fault. -/
abbrev Effect := EStateM Fault State

namespace Effect

/-- Counts a call. -/
def countCall (call : Call) : Effect Unit :=
  modify fun s => { s with calls := s.calls.add call }

/-- Counts work. -/
def countWork (work : Work) : Effect Unit :=
  modify fun s => { s with work := s.work.add work }

/-- Reports a notice. -/
def report (notice : Notice) : Effect Unit :=
  modify fun s => { s with notices := s.notices ++ [notice] }

/-- Hands out a stamp. -/
def freshStamp : Effect Nat :=
  modifyGet fun s => (s.nextStamp, { s with nextStamp := s.nextStamp + 1 })

/-- An answer that is already there, or a fault. -/
def ofExcept {α : Type} : Except Fault α → Effect α
  | .ok a => pure a
  | .error fault => throw fault

/-- Reads the store. -/
def reading {α : Type} (read : Store → Except Fault α) : Effect α := do
  ofExcept (read (← get).store)

/-- Changes the store and answers the result of the change. -/
def changing {α : Type} (change : Store → α × Store) : Effect α :=
  modifyGet fun s => let (a, store) := change s.store; (a, { s with store })

/-- Changes the store, or faults and leaves it as it is. -/
def attempting (change : Store → Except Fault Store) : Effect Unit := do
  let store ← reading change
  modify fun s => { s with store }

end Effect

end ExtentQuery
