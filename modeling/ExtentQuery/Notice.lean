import ExtentQuery.EntityId

/-!
# Notices

Events that the library reports besides its answers.  They never change an answer: each
one says that an answer may have cost more than it should, or that two ways to compute
it disagree.
-/

namespace ExtentQuery

/-- An event worth reporting. -/
inductive Notice where
  /-- A pass used up its rewrites. -/
  | budgetExhausted (pass : String) (maxRewrites : Nat)
  /-- The last round of rewriting still changed the query. -/
  | noFixpoint (rounds : Nat)
  /-- The links shortcut found another number of entities than the direct way. -/
  | linksMismatchInSize (link : String) (shortcut direct : Nat)
  /-- The links shortcut found another entity than the direct way at a position. -/
  | linksMismatchAt (link : String) (position : Nat) (shortcut direct : EntityId)
  /-- A backend was asked to sort by links. -/
  | targetOrderRequested (link : String) (multiple : Bool) (opposite : Option String)
      (ascending : Bool) (targets : List EntityId)
deriving DecidableEq, Repr, Inhabited

end ExtentQuery
