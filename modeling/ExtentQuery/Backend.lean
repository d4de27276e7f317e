import ExtentQuery.Listing
import ExtentQuery.SetOperation
import ExtentQuery.SortStep

/-!
# Backends

A backend is what the engine asks for listings.  Its look-ups answer for exactly one
concrete type: that a query over a type means its subtypes too is the business of the
engine.

* look-ups — `all` and everything down to `linkTargets`;
* `combine` — set operations on listings;
* `sortType`, `merge` — sorting one type, and merging what is sorted;
* `searchLinks`, `orderByTargets` — shortcuts that a backend may lack, in which case the answer
  is `none` and the engine goes the long way.

Properties and links of single entities are read from the store directly.
-/

namespace ExtentQuery

/-- A request to order entities by their targets. -/
structure TargetOrder where
  /-- The entities to be ordered. -/
  source : Listing
  /-- The targets, ordered as requested. -/
  targets : Listing
  link : String
  /-- Whether the link can have several targets. -/
  multiple : Bool
  /-- The link that leads back, if there is one. -/
  opposite : Option String
  ascending : Bool

/-- What the engine asks for listings. -/
structure Backend where
  /-- The entities of a type. -/
  all (type : String) : Effect Listing
  /-- Those whose property equals a value. -/
  equal (type property : String) (value : Value) : Effect Listing
  /-- Those whose property is a text that starts in a given way. -/
  startsWith (type property start : String) : Effect Listing
  /-- Those whose property lies between two bounds. -/
  between (type property : String) (low high : Value) : Effect Listing
  /-- Those that have a property. -/
  hasProperty (type property : String) : Effect Listing
  /-- Those that have a blob. -/
  hasBlob (type blob : String) : Effect Listing
  /-- Those with a link to a target. -/
  linkedTo (type link : String) (target : EntityId) : Effect Listing
  /-- Those with any target on a link. -/
  hasLink (type link : String) : Effect Listing
  /-- The targets of a link of one entity. -/
  linkTargets (id : EntityId) (link : String) : Effect Listing
  /-- The entities of `source` with a link to any of `targets`. -/
  searchLinks (source targets : Listing) (link : String) : Effect (Option Listing)
  /-- The result of a set operation. -/
  combine (operation : SetOperation) (left right : Listing) : Effect Listing
  /-- The entities of exactly one type, from a listing or from its whole extent, sorted by
  a property. -/
  sortType (type property : String) (source : Option Listing) (ascending : Bool) :
    Effect Listing
  /-- The entities in the order of their targets. -/
  orderByTargets (request : TargetOrder) : Effect (Option Listing)
  /-- Listings that are sorted by a key, merged into one. -/
  merge (listings : List Listing) (key : SortKey) (ascending : Bool) : Effect Listing

end ExtentQuery
