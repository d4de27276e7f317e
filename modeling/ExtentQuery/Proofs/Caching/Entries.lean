import ExtentQuery.Cache.QueryCache
import Mathlib.Order.Basic

/-!
# What a cache remembers

A cache forgets, but it never makes anything up: what is found under a text after an
operation was written under this text by it, or was found before.  So whatever holds of
every pair of a query and its optimized form that is stored holds of every entry.

* `Recent.of_get?_insert`, `Recent.of_get?_touch` — one table;
* `QueryCache.of_get?_store`, `QueryCache.get?_count`, `QueryCache.get?_clear` — the cache;
* `QueryCache.Remembers`, with one lemma for each operation.
-/

namespace ExtentQuery.Cache

open Rewrite (Optimized)

namespace Recent

variable {α : Type} {table : Recent α} {key key' : String} {value value' : α}

theorem lookup_filter_ne (different : key' ≠ key) (entries : List (String × α)) :
    (entries.filter (·.1 != key)).lookup key' = entries.lookup key' := by
  induction entries with
  | nil => rfl
  | cons entry entries ih =>
    by_cases same : entry.1 = key
    · have other : (key' == entry.1) = false := by
        rw [same]
        exact beq_false_of_ne different
      rw [List.filter_cons_of_neg (by simp [same]), List.lookup_cons, other, ih]
    · rw [List.filter_cons_of_pos (by simp [same]), List.lookup_cons, List.lookup_cons, ih]

/-- What is found after an entry was written is this entry, or it was found before. -/
theorem of_get?_insert (found : (table.insert key value).get? key' = some value') :
    key' = key ∧ value' = value ∨ table.get? key' = some value' := by
  have whole : ((key, value) :: table.entries.filter (·.1 != key)).lookup key' = some value' :=
    (List.take_prefix _ _).lookup_eq_some found
  by_cases same : key' = key
  · subst same
    rw [List.lookup_cons_self] at whole
    exact .inl ⟨rfl, (Option.some.inj whole).symm⟩
  · rw [List.lookup_cons, beq_false_of_ne same] at whole
    exact .inr ((lookup_filter_ne same _).symm.trans whole)

theorem of_get?_touch (found : (table.touch key).get? key' = some value') :
    table.get? key' = some value' := by
  unfold touch at found
  split at found
  case h_1 value here =>
    rcases of_get?_insert found with ⟨rfl, rfl⟩ | before
    · exact here
    · exact before
  case h_2 => exact found

end Recent

namespace QueryCache

variable {cache : QueryCache} {key key' : String} {optimized optimized' : Optimized}

/-- An operation on one shard, which leaves the others as they are. -/
theorem of_get?_modify {change : Recent Optimized → Recent Optimized} {hits misses : Nat}
    {P : Prop} (changed : ∀ table : Recent Optimized,
      (change table).get? key' = some optimized' → P ∨ table.get? key' = some optimized')
    (found : QueryCache.get?
      { cache with shards := cache.shards.modify (cache.shardOf key) change, hits, misses } key'
        = some optimized') :
    P ∨ cache.get? key' = some optimized' := by
  obtain ⟨table, shard, entry⟩ := Option.bind_eq_some_iff.mp found
  simp only [shardOf, Array.size_modify, Array.getElem?_modify] at shard
  have here : ∀ {table : Recent Optimized}, cache.shards[cache.shardOf key']? = some table →
      table.get? key' = some optimized' → cache.get? key' = some optimized' :=
    fun shard entry => Option.bind_eq_some_iff.mpr ⟨_, shard, entry⟩
  split at shard
  case isTrue =>
    obtain ⟨before, shardBefore, rfl⟩ := Option.map_eq_some_iff.mp shard
    exact (changed before entry).imp_right (here shardBefore)
  case isFalse => exact .inr (here shard entry)

/-- What is found after an optimized query was stored is this one, or it was found
before. -/
theorem of_get?_store {q : Query} (found : (cache.store q optimized).get? key' = some optimized') :
    key' = q.canonical ∧ optimized' = optimized ∨ cache.get? key' = some optimized' := by
  unfold store at found
  split at found
  case isTrue => exact of_get?_modify (fun _ => Recent.of_get?_insert) found
  case isFalse => exact .inr found

/-- A look-up brings nothing into the cache. -/
theorem of_get?_count {looked : Option Optimized}
    (found : (cache.count key looked).get? key' = some optimized') :
    cache.get? key' = some optimized' := by
  cases looked with
  | none => exact found
  | some =>
    have touched : False ∨ cache.get? key' = some optimized' :=
      of_get?_modify (fun _ here => .inr (Recent.of_get?_touch here)) found
    exact touched.resolve_left id

theorem get?_clear (cache : QueryCache) (key : String) : cache.clear.get? key = none := by
  refine Option.bind_eq_none_iff.mpr fun table shard => ?_
  rw [clear, Array.getElem?_map] at shard
  obtain ⟨before, -, rfl⟩ := Option.map_eq_some_iff.mp shard
  rfl

theorem get?_create (capacity : Nat) (concurrent : Bool) (shards : Nat) (key : String) :
    (create capacity concurrent shards).get? key = none := by
  refine Option.bind_eq_none_iff.mpr fun table shard => ?_
  rw [create, Array.getElem?_replicate] at shard
  split at shard
  case isTrue =>
    cases shard
    rfl
  case isFalse => cases shard

/-! ### An invariant -/

/-- Whether everything that a cache remembers was stored under the canonical text of a
query of which a condition holds. -/
def Remembers (cache : QueryCache) (P : Query → Optimized → Prop) : Prop :=
  ∀ key optimized, cache.get? key = some optimized →
    ∃ q : Query, q.canonical = key ∧ P q optimized

variable {P : Query → Optimized → Prop}

theorem remembers_of_empty (empty : ∀ key, cache.get? key = none) : cache.Remembers P := by
  intro key optimized found
  rw [empty key] at found
  cases found

theorem Remembers.store {q : Query} (remembers : cache.Remembers P) (holds : P q optimized) :
    (cache.store q optimized).Remembers P := by
  intro key optimized' found
  rcases of_get?_store found with ⟨rfl, rfl⟩ | before
  · exact ⟨q, rfl, holds⟩
  · exact remembers key optimized' before

theorem Remembers.count {looked : Option Optimized} (remembers : cache.Remembers P) :
    (cache.count key looked).Remembers P :=
  fun key' optimized found => remembers key' optimized (of_get?_count found)

theorem Remembers.clear : cache.clear.Remembers P :=
  remembers_of_empty cache.get?_clear

end QueryCache

end ExtentQuery.Cache
