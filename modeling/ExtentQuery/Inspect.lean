import ExtentQuery.Selection
import ExtentQuery.Text.Quoted

/-!
# Inspection texts

One-line descriptions of the library's data for logs and diagnostics.  A record is
written as its name and its fields in braces (`Inspect.labelled`), and a record that does
not show all of its fields ends in two dots (`Inspect.labelledInPart`).
-/

namespace ExtentQuery

namespace Inspect

/-- A name before the fields of a record, each with its own name. -/
def labelled (name : String) (fields : List (String × String)) : String :=
  name ++ " \x7b " ++ ", ".intercalate (fields.map fun field => field.1 ++ ": " ++ field.2)
    ++ " \x7d"

/-- The same for a record that keeps some of its fields to itself. -/
def labelledInPart (name : String) (fields : List (String × String)) : String :=
  name ++ " \x7b "
    ++ ", ".intercalate (fields.map (fun field => field.1 ++ ": " ++ field.2) ++ [".."])
    ++ " \x7d"

/-- A name before what it holds. -/
def wrapped (name content : String) : String :=
  name ++ "(" ++ content ++ ")"

end Inspect

open Inspect

/-- The kind of a node by its name. -/
def Query.Kind.inspect : Kind → String
  | root => "Root"
  | all => "GetAll"
  | linksFrom => "GetLinks"
  | equals => "PropertyEqual"
  | between => "PropertyRange"
  | startsWith => "PropertyStartsWith"
  | hasProperty => "PropertyNotNull"
  | linkedTo => "LinkEqual"
  | hasLink => "LinkNotNull"
  | linkedInto => "LinksEqualDecorator"
  | inter => "And"
  | union => "Or"
  | diff => "Minus"
  | concat => "Concat"
  | compl => "Not"
  | sort => "Sort"
  | custom => "Custom"
  | slot => "Wildcard"

/-- A call by the name under which it is counted. -/
def Call.inspect : Call → String
  | all => "all"
  | equal => "property_equal"
  | filter => "filters"
  | inter => "intersect"
  | union => "union"
  | diff => "minus"
  | concat => "concat"
  | sort => "sort_by_property"
  | orderByTargets => "sort_links"
  | searchLinks => "find_links"
  | merge => "merge_sorted"
  | iteration => "iterations"

/-- The calls that are counted. -/
def Call.every : List Call :=
  [all, equal, filter, inter, union, diff, concat, sort, orderByTargets, searchLinks,
    merge, iteration]

/-- Work by the name under which it is counted. -/
def Work.inspect : Work → String
  | optimization => "optimize"
  | instantiation => "instantiate"
  | setOperation => "set_op"
  | memorySort => "in_memory_sort"
  | linkSort => "link_sort"
  | merge => "merge"

/-- The work that is counted. -/
def Work.every : List Work :=
  [optimization, instantiation, setOperation, memorySort, linkSort, merge]

/-- A cache by its number of shards and its counts. -/
def Cache.QueryCache.inspect (cache : QueryCache) : String :=
  labelled "OptimizedTreeCache"
    [("shards", toString cache.shards.size), ("hits", toString cache.hits),
      ("misses", toString cache.misses)]

/-- A store by its size. -/
def Store.inspect (store : Store) : String :=
  labelled "MemoryBackend"
    [("types", toString store.typeCount), ("entities", toString store.entityCount)]

/-- A sorting method by its name. -/
def Sorting.Method.inspect (method : Method) : String :=
  method.name.capitalize

/-- The settings of sorts. -/
def SortSettings.inspect (settings : SortSettings) : String :=
  labelled "SortConfig"
    [("max_in_memory", toString settings.maxInMemory),
      ("max_enum_count_for_link_sort", toString settings.maxTargetsForLinkSort),
      ("min_entries_for_link_sort", toString settings.minEntriesForLinkSort),
      ("in_memory", settings.method.inspect)]

/-- The settings of an engine. -/
def Settings.inspect (settings : Settings) : String :=
  labelled "QueryEngineConfig"
    [("cache_capacity", toString settings.cacheCapacity),
      ("concurrent_cache", toString settings.concurrentCache),
      ("cache_shards", toString settings.cacheShards),
      ("depth_warning_threshold", toString settings.depthWarningThreshold),
      ("depth_warning_interval_ms", toString settings.depthWarningInterval),
      ("max_rewrites_per_plan", toString settings.maxRewrites),
      ("trace_find_links", toString settings.comparesShortcut),
      ("sort", settings.sort.inspect)]

/-- An engine by its settings and its cache. -/
def Engine.inspect (engine : Engine) (cache : Cache.QueryCache) : String :=
  labelledInPart "QueryEngine"
    [("config", engine.settings.inspect), ("cache", cache.inspect)]

/-- The sorting side of an engine. -/
def Engine.inspectSorter (engine : Engine) : String :=
  labelledInPart "SortEngine" [("config", engine.settings.sort.inspect)]

/-- A listing by what is known about it. -/
def Listing.inspect (listing : Listing) : String :=
  labelled "MemorySeq"
    [("len", toString listing.ids.length), ("sorted_by_id", toString listing.inIdOrder)]

/-- Rows by their kind and size. -/
def Rows.inspect : Rows → String
  | empty => "Empty"
  | native listing => wrapped "Backend" listing.inspect
  | computed _ ids => wrapped "Materialized" (toString ids.length ++ " ids")

/-- A query that is not evaluated yet. -/
def Selection.inspectDeferral (type : String) (query : Query) (filters : Bool) : String :=
  wrapped "Tree" (labelled "TreeKeepingSeq"
    [("entity_type", Text.quoted type), ("tree", query.canonical),
      ("has_instance", toString filters)])

/-- A selection by its kind and what it waits for. -/
def Selection.inspect : Selection → String
  | rows r => r.inspect
  | deferred _ type query => inspectDeferral type query false
  | filtered _ type query _ => inspectDeferral type query true
  | typed _ type inner =>
    wrapped "Typed" (labelled "StaticTypedSeq"
      [("entity_type", Text.quoted type), ("inner", inner.inspect)])

end ExtentQuery
