import ExtentQuery.Sorting.Method

/-!
# Settings

What the owner of an engine can set.  Every setting has a default, so a document of
settings names only what it changes.
-/

namespace ExtentQuery

/-- When to sort which way. -/
structure SortSettings where
  /-- The longest list in memory that is sorted there. -/
  maxInMemory : Nat
  /-- The most targets that the backend is asked to order entities by. -/
  maxTargetsForLinkSort : Nat
  /-- The fewest entities that the backend is asked to order by their targets. -/
  minEntriesForLinkSort : Nat
  /-- How to sort in memory. -/
  method : Sorting.Method
deriving DecidableEq, Repr

namespace SortSettings

/-- The settings of a sort that nobody has changed. -/
def default : SortSettings :=
  { maxInMemory := 100000
    maxTargetsForLinkSort := 2048
    minEntriesForLinkSort := 256
    method := .merge }

instance : Inhabited SortSettings := ⟨default⟩

end SortSettings

/-- The settings of an engine. -/
structure Settings where
  /-- How many optimized queries are remembered; with zero, none are. -/
  cacheCapacity : Nat
  /-- Whether the cache is spread over several shards. -/
  concurrentCache : Bool
  cacheShards : Nat
  /-- How deep a query may be before it is reported; with zero, no query is. -/
  depthWarningThreshold : Nat
  /-- The least time between two such reports, in milliseconds. -/
  depthWarningInterval : Nat
  /-- How many rewrites a pass may make. -/
  maxRewrites : Nat
  /-- Whether the links shortcut is compared with the direct way. -/
  comparesShortcut : Bool
  sort : SortSettings
deriving DecidableEq, Repr

namespace Settings

/-- The settings that nobody has changed. -/
def default : Settings :=
  { cacheCapacity := 4096
    concurrentCache := true
    cacheShards := 16
    depthWarningThreshold := 200
    depthWarningInterval := 10000
    maxRewrites := 100000
    comparesShortcut := false
    sort := .default }

instance : Inhabited Settings := ⟨default⟩

/-- Applies what the environment says about the comparison of the links shortcut: it is
switched on by every text but `0`, `false` in any case, and the empty text. -/
def withTrace (settings : Settings) : Option String → Settings
  | none => settings
  | some text =>
    { settings with comparesShortcut := text.toLower ∉ ["0", "false", ""] }

end Settings

end ExtentQuery
