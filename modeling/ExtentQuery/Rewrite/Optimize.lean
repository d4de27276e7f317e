import ExtentQuery.Notice
import ExtentQuery.Rewrite.Standard

/-!
# Optimization

Optimizing a query runs the standard passes over it, one after the other, and repeats
this sequence until a round leaves the query the same.  A round may enable another one,
because the passes undo one another in part: the first one writes differences as
complements and the third one turns complements back into differences.

* `Optimized` — a rewritten query and the sort steps taken out of it;
* `optimize` — the rounds, at most `maxRounds` of them.

Each run of a pass has a budget of rewrites of its own.  A run that uses up its budget
and a last round that still changed the query are reported as notices; the query is as
good an answer in both cases, it may only be larger than need be.
-/

namespace ExtentQuery.Rewrite

/-- A rewritten query together with the sort steps taken out of it. -/
structure Optimized where
  query : Query
  hoisted : Hoisted
deriving DecidableEq, Inhabited

/-- The query below the sort steps that are left at its top, and all sort steps in the
order of their application. -/
def Optimized.steps (optimized : Optimized) : Query × List SortStep :=
  let (orders, body) := optimized.query.splitSorts
  (body, orders.reverse ++ optimized.hoisted.orders)

/-- A computation that may report notices and may fault. -/
abbrev Reporting := EStateM Fault (List Notice)

/-- Reports a notice. -/
def report (notice : Notice) : Reporting Unit :=
  modify (· ++ [notice])

/-- Runs passes one after the other, each with the same budget. -/
def runPasses (maxRewrites : Nat) : List Pass → Optimized → Reporting Optimized
  | [], current => pure current
  | pass :: passes, current =>
    match pass.run ⟨current.query, current.hoisted, maxRewrites⟩ with
    | .error fault => throw fault
    | .ok last => do
      if last.budget = 0 then
        report (.budgetExhausted pass.name maxRewrites)
      runPasses maxRewrites passes ⟨last.query, last.hoisted⟩

/-- The most rounds that one optimization takes. -/
def maxRounds : Nat := 8

/-- Runs the standard passes up to `rounds` times, until a round leaves the query the
same. -/
def runRounds (maxRewrites : Nat) : (rounds : Nat) → Optimized → Reporting Optimized
  | 0, current => pure current
  | rounds + 1, current => do
    let next ← runPasses maxRewrites Standard.passes current
    if next.query.same current.query then
      return next
    if rounds = 0 then
      report (.noFixpoint maxRounds)
    runRounds maxRewrites rounds next

/-- The query inside its holder. -/
def unroot : Query → Query
  | .root q => q
  | q => q

/-- Optimizes a query with at most `maxRewrites` rewrites for each run of a pass. -/
def optimize (maxRewrites : Nat) (q : Query) : Reporting Optimized := do
  let last ← runRounds maxRewrites maxRounds ⟨.root q, .empty⟩
  return { last with query := unroot last.query }

end ExtentQuery.Rewrite
