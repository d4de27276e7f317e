import ExtentQuery.Cache.Recent
import ExtentQuery.Hash.XXH64
import ExtentQuery.Rewrite.Optimize

/-!
# The cache of optimized queries

Optimized queries are remembered under the canonical text of the query that they came
from.  A query that differs only in the order of commuting operands has the same
canonical text and is answered by the same entry.

**Shards.**  The entries are spread over several bounded tables, the shards.  Which shard
is responsible for a canonical text is up to the function `QueryCache.spread`, for which
`QueryCache.create` takes the hash of the text; nothing else depends on it.  The capacity
is split evenly, rounded up, so the cache as a whole may hold slightly more than its
capacity.  A cache of capacity zero has no shard and remembers nothing.  Room for all
entries is set aside at once, so a cache can be too large (`QueryCache.create?`).

**What is not remembered.**  A query whose hoisted steps include a supplied key is left
out, because its canonical text does not say what the key computes.

Every look-up is counted as a hit or as a miss, with or without shards.
-/

namespace ExtentQuery.Cache

open Rewrite (Optimized)

/-- The cache of optimized queries. -/
structure QueryCache where
  /-- A number for each canonical text; the shard is this number modulo the number of
  shards. -/
  spread : String → Nat
  shards : Array (Recent Optimized)
  hits : Nat
  misses : Nat
deriving Inhabited

namespace QueryCache

/-- Number of shards for a capacity: none for capacity zero, one unless the cache is
meant for concurrent use, and never more than the capacity. -/
def shardCount (capacity : Nat) (concurrent : Bool) (shards : Nat) : Nat :=
  if capacity = 0 then 0
  else if concurrent then min (max shards 1) capacity
  else 1

/-- Capacity of each shard: an even share of the whole, rounded up. -/
def shardCapacity (capacity shards : Nat) : Nat :=
  max 1 ((capacity + max shards 1 - 1) / max shards 1)

/-- A cache without entries. -/
def create (capacity : Nat) (concurrent : Bool) (shards : Nat) : QueryCache :=
  let count := shardCount capacity concurrent shards
  { spread := fun key => (Hash.XXH64.hash key.toUTF8).toNat
    shards := Array.replicate count (.empty (shardCapacity capacity count))
    hits := 0
    misses := 0 }

/-- The most shards that an address space of `2 ^ 63` bytes has room for, each of which
takes 72 bytes. -/
def maxShards : Nat := (1 <<< 63 - 1) / 72

/-- The most entries that a shard can make room for.  At most seven eighths of a table
are used, the size of a table is a power of two, and one of `2 ^ 59` does not fit. -/
def maxShardCapacity : Nat := 7 <<< 55

/-- A cache without entries, unless there is no room for it. -/
def create? (capacity : Nat) (concurrent : Bool) (shards : Nat) : Except Fault QueryCache :=
  let count := shardCount capacity concurrent shards
  if maxShards < count then .error .tooManyShards
  else if 0 < count ∧ maxShardCapacity < shardCapacity capacity count then
    .error .shardTooLarge
  else .ok (create capacity concurrent shards)

/-- Whether a look-up can ever succeed. -/
def enabled (cache : QueryCache) : Bool :=
  !cache.shards.isEmpty

/-- The position of the shard that is responsible for a canonical text. -/
def shardOf (cache : QueryCache) (key : String) : Nat :=
  cache.spread key % cache.shards.size

/-- The entry under a canonical text. -/
def get? (cache : QueryCache) (key : String) : Option Optimized :=
  cache.shards[cache.shardOf key]?.bind (·.get? key)

/-- Counts a look-up as a hit or a miss; the entry that was found becomes the most
recently used one of its shard. -/
def count (cache : QueryCache) (key : String) : Option Optimized → QueryCache
  | some _ =>
    { cache with
      shards := cache.shards.modify (cache.shardOf key) (·.touch key)
      hits := cache.hits + 1 }
  | none => { cache with misses := cache.misses + 1 }

/-- Looks up a canonical text and counts the look-up. -/
def lookup (cache : QueryCache) (key : String) : Option Optimized × QueryCache :=
  (cache.get? key, cache.count key (cache.get? key))

/-- Looks up the optimized form of a query and counts the look-up. -/
def find (cache : QueryCache) (q : Query) : Option Optimized × QueryCache :=
  cache.lookup q.canonical

/-- Writes an entry into the shard that is responsible for it. -/
def put (cache : QueryCache) (key : String) (optimized : Optimized) : QueryCache :=
  { cache with shards := cache.shards.modify (cache.shardOf key) (·.insert key optimized) }

/-- Remembers the optimized form of a query, unless its hoisted steps forbid it. -/
def store (cache : QueryCache) (original : Query) (optimized : Optimized) : QueryCache :=
  if optimized.hoisted.cacheable then cache.put original.canonical optimized else cache

/-- Number of entries. -/
def size (cache : QueryCache) : Nat :=
  cache.shards.foldl (fun count shard => count + shard.size) 0

/-- Forgets every entry; the counts stay. -/
def clear (cache : QueryCache) : QueryCache :=
  { cache with shards := cache.shards.map Recent.clear }

/-- Each look-up is counted exactly once. -/
theorem hits_add_misses_count (cache : QueryCache) (key : String)
    (found : Option Optimized) :
    (cache.count key found).hits + (cache.count key found).misses
      = cache.hits + cache.misses + 1 := by
  cases found with
  | none => simp only [count, Nat.add_assoc]
  | some _ => simp only [count, Nat.add_right_comm]

end QueryCache

end ExtentQuery.Cache
