import ExtentQuery.Backend

/-!
# Backends with less to offer

`Backend.plain` takes a backend and hides everything that is not needed to answer: its
listings can only be iterated, and it has no shortcuts.  The engine has to give the same
entities over it as over the full backend, at a higher price.
-/

namespace ExtentQuery

/-- The same entities, with nothing known about them but how to iterate them. -/
def Listing.asView (listing : Listing) : Listing :=
  { listing with origin := .view }

/-- A backend without shortcuts whose listings can only be iterated. -/
def Backend.plain (backend : Backend) : Backend where
  all type := return (← backend.all type).asView
  equal type property value := return (← backend.equal type property value).asView
  startsWith type property start := return (← backend.startsWith type property start).asView
  between type property low high := return (← backend.between type property low high).asView
  hasProperty type property := return (← backend.hasProperty type property).asView
  hasBlob type blob := return (← backend.hasBlob type blob).asView
  linkedTo type link target := return (← backend.linkedTo type link target).asView
  hasLink type link := return (← backend.hasLink type link).asView
  linkTargets id link := return (← backend.linkTargets id link).asView
  searchLinks _ _ _ := pure none
  combine operation left right := return (← backend.combine operation left right).asView
  sortType type property source ascending :=
    return (← backend.sortType type property source ascending).asView
  orderByTargets _ := pure none
  merge listings key ascending :=
    return (← backend.merge listings key ascending).asView

end ExtentQuery
