import ExtentQuery.Query

/-!
# Warnings about deep queries

A query that is deeper than a threshold deserves a warning, but not one for every use.
A `DepthAlarm` remembers when it rang last and keeps silent for an interval after that.
-/

namespace ExtentQuery

/-- When the last warning was given, in milliseconds; `none` before the first one. -/
structure DepthAlarm where
  last : Option Nat
deriving DecidableEq, Inhabited

/-- Decides about a warning for a query at the time `now`, all times in milliseconds.  A
threshold of zero turns the alarm off, and an interval of zero lets it ring every
time. -/
def DepthAlarm.check (alarm : DepthAlarm) (q : Query) (threshold interval now : Nat) :
    Bool × DepthAlarm :=
  let silenced := alarm.last.any fun last => now - last < interval
  if threshold = 0 ∨ q.depth ≤ threshold ∨ silenced then (false, alarm)
  else (true, ⟨some now⟩)

end ExtentQuery
