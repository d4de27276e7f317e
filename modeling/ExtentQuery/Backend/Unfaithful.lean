import ExtentQuery.Backend

/-!
# Backends with an unfaithful shortcut

`Backend.rearranging` takes a backend and changes what its links shortcut answers, so
that the engine's comparison of the shortcut with the direct way has something to find.
It reports every request to order by links, and answers it like the backend it takes.
-/

namespace ExtentQuery

/-- A listing made outside the store. -/
def Listing.ofIds (ids : List EntityId) (failure : Option Fault) (rough : Option Nat) :
    Effect Listing :=
  return ⟨← Effect.freshStamp, .standalone, ids, failure, rough.getD ids.length⟩

/-- A backend whose links shortcut answers something else. -/
def Backend.rearranging (rearrange : List EntityId → List EntityId) (backend : Backend) :
    Backend :=
  { backend with
    searchLinks := fun source targets link => do
      match ← backend.searchLinks source targets link with
      | none => return none
      | some found => return some (← Listing.ofIds (rearrange (← found.collect)) none none)
    orderByTargets := fun request => do
      let targets ← request.targets.collect
      Effect.report (.targetOrderRequested request.link request.multiple request.opposite
        request.ascending targets)
      backend.orderByTargets request }

/-- A backend whose links shortcut answers in reverse order. -/
def Backend.reversing : Backend → Backend := rearranging List.reverse

/-- A backend whose links shortcut loses the last entity. -/
def Backend.dropping : Backend → Backend := rearranging List.dropLast

end ExtentQuery
