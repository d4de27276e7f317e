import ExtentQuery.Settings
import ExtentQuery.Toml.Document

/-!
# Settings from documents

Settings are read from a TOML document.  A name that means nothing here is passed over,
and a name that is absent keeps its default.

**Sections.**  The settings of sorts form a section of their own.  Instead of a table the
section may be an array, which lists the settings in their order and may stop early or
run on.  A date counts as a section that sets nothing.

**Choices.**  The way of sorting is named by a string, or by a table with that name as its
only key and nothing behind it.
-/

namespace ExtentQuery

open Toml (Node Entries)

namespace Toml.Node

/-- A number that is not negative. -/
def nat? : Node → Option Nat
  | integer n => if 0 ≤ n then some n.toNat else none
  | _ => none

/-- A truth value. -/
def bool? : Node → Option Bool
  | bool b => some b
  | _ => none

/-- Whether there is nothing in an array or a table. -/
def isVoid : Node → Bool
  | array items => items.isEmpty
  | table _ entries => entries.isEmpty
  | tables elements => elements.isEmpty
  | _ => false

/-- A name, or a table with the name as its only key and nothing behind it. -/
def choice? : Node → Option String
  | string name => some name
  | table _ [(name, node)] => if node.isVoid then some name else none
  | _ => none

end Toml.Node

/-- What a reader makes of a node, or the default if there is no node. -/
def setting {α : Type} (read : Node → Option α) (fallback : α) : Option Node → Option α
  | none => some fallback
  | some node => read node

/-- A method of sorting by its name. -/
def Sorting.Method.ofNode? (node : Node) : Option Sorting.Method :=
  node.choice?.bind ofName?

namespace SortSettings

/-- The settings of sorts, each from a node that may be missing. -/
def ofNodes? (maxInMemory maxTargets minEntries method : Option Node) :
    Option SortSettings := do
  return {
    maxInMemory := ← setting Node.nat? default.maxInMemory maxInMemory
    maxTargetsForLinkSort := ← setting Node.nat? default.maxTargetsForLinkSort maxTargets
    minEntriesForLinkSort := ← setting Node.nat? default.minEntriesForLinkSort minEntries
    method := ← setting Sorting.Method.ofNode? default.method method }

/-- The settings of sorts from the entries of a table. -/
def ofEntries? (entries : Entries) : Option SortSettings :=
  ofNodes? (entries.lookup "max_in_memory") (entries.lookup "max_enum_count_for_link_sort")
    (entries.lookup "min_entries_for_link_sort") (entries.lookup "in_memory")

/-- The settings of sorts from the items of an array. -/
def ofItems? (items : List Node) : Option SortSettings :=
  ofNodes? items[0]? items[1]? items[2]? items[3]?

/-- The settings of sorts from a section. -/
def ofNode? : Node → Option SortSettings
  | .table _ entries => ofEntries? entries
  | .array items => ofItems? items
  | .tables elements => ofItems? (elements.map (.table .header))
  | .dateTime _ => some default
  | _ => none

end SortSettings

namespace Settings

/-- The settings from the entries of a table. -/
def ofEntries? (entries : Entries) : Option Settings := do
  let nat (name : String) (fallback : Nat) := setting Node.nat? fallback (entries.lookup name)
  let bool (name : String) (fallback : Bool) :=
    setting Node.bool? fallback (entries.lookup name)
  return {
    cacheCapacity := ← nat "cache_capacity" default.cacheCapacity
    concurrentCache := ← bool "concurrent_cache" default.concurrentCache
    cacheShards := ← nat "cache_shards" default.cacheShards
    depthWarningThreshold := ← nat "depth_warning_threshold" default.depthWarningThreshold
    depthWarningInterval := ← nat "depth_warning_interval_ms" default.depthWarningInterval
    maxRewrites := ← nat "max_rewrites_per_plan" default.maxRewrites
    comparesShortcut := ← bool "trace_find_links" default.comparesShortcut
    sort := ← setting SortSettings.ofNode? default.sort (entries.lookup "sort") }

/-- The settings that a document writes, if it is valid. -/
def parse? (document : String) : Option Settings :=
  (Toml.parse document).bind ofEntries?

end Settings

end ExtentQuery
