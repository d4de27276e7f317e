import ExtentQuery.Proofs.Caching.Sharing
import Mathlib.Algebra.Order.BigOperators.Group.List
import Mathlib.Algebra.Order.Floor.Div
import Mathlib.Data.Finset.Card

/-!
# What a run of cache operations leaves behind

A run is a list of look-ups, stores and clearings, the latest one in front.  Each of them
either uses an entry, which then stands in front of its shard, or leaves the order of the
entries as it is.  So an entry stands behind entries of texts that were used since, and it is
forgotten when there are as many of these as its shard has room for.

* `Operation`, `QueryCache.after` — runs;
* `Operation.latest` — what was stored last under a text;
* `QueryCache.rivals` — the texts of the same shard that were used since;
* `Recent.Recalls` — the invariant of one shard and one text, with a lemma for an entry that is
  put in front of the shard (`Recent.Recalls.insert`);
* `QueryCache.Recalls.perform` — each operation preserves it for every text;
* `QueryCache.find_after` — what a look-up finds after a run, how many entries there are, and
  how many look-ups were counted.

**Which shard is responsible.**  The statements are about every function that spreads texts over
the shards, in particular about the hash that `QueryCache.create` takes.
-/

namespace ExtentQuery.Cache

open Rewrite (Optimized)

/-! ### One shard -/

namespace Recent

variable {α : Type} {table : Recent α} {key other : String} {value new : α} {stored : Option α}
  {others : Finset String}

/-- Whether the entries of a table have different texts. -/
def Distinct (table : Recent α) : Prop :=
  (table.entries.map (·.1)).Nodup

theorem distinct_empty (capacity : Nat) : (empty capacity : Recent α).Distinct :=
  List.nodup_nil

/-- An entry in front of the entries of other texts. -/
theorem Distinct.cons_filter (distinct : table.Distinct) (key : String) (value : α) :
    (((key, value) :: table.entries.filter (·.1 != key)).map (·.1)).Nodup := by
  refine List.nodup_cons.mpr ⟨?_, List.Nodup.sublist (List.filter_sublist.map _) distinct⟩
  simp

theorem Distinct.insert (distinct : table.Distinct) (key : String) (value : α) :
    (table.insert key value).Distinct :=
  List.Nodup.sublist ((List.take_sublist _ _).map _) (distinct.cons_filter key value)

/-- Entries of different texts are no more than these texts. -/
theorem length_le_card {entries : List (String × α)} (distinct : (entries.map (·.1)).Nodup)
    (within : ∀ entry ∈ entries, entry.1 ∈ others) : entries.length ≤ others.card := by
  have subset : (entries.map (·.1)).toFinset ⊆ others := by
    intro text mem
    obtain ⟨entry, here, rfl⟩ := List.mem_map.mp (List.mem_toFinset.mp mem)
    exact within entry here
  calc entries.length
    _ = (entries.map (·.1)).toFinset.card := by
      rw [List.toFinset_card_of_nodup distinct, List.length_map]
    _ ≤ others.card := Finset.card_le_card subset

/-- Whether a table knows under a text nothing but what was stored there, and does know it
while the texts in `others` are fewer than there is room for, because the entries in front of it
are theirs. -/
structure Recalls (table : Recent α) (key : String) (stored : Option α)
    (others : Finset String) : Prop where
  only : ∀ value, table.get? key = some value → stored = some value
  kept : ∀ value, stored = some value → others.card < table.capacity →
    ∃ front back, table.entries = front ++ (key, value) :: back ∧
      ∀ entry ∈ front, entry.1 ∈ others ∧ entry.1 ≠ key

theorem Recalls.get? (recalls : table.Recalls key stored others) (knows : stored = some value)
    (room : others.card < table.capacity) : table.get? key = some value := by
  obtain ⟨front, back, entries, inFront⟩ := recalls.kept value knows room
  exact List.lookup_eq_some_iff.mpr
    ⟨front, back, entries, fun entry mem => bne_iff_ne.mpr (inFront entry mem).2.symm⟩

theorem recalls_empty (capacity : Nat) :
    (empty capacity : Recent α).Recalls key none others where
  only _ found := nomatch found
  kept _ knows := nomatch knows

/-- What was just written under a text is in front of everything. -/
theorem recalls_insert_self (table : Recent α) (key : String) (value : α) :
    (table.insert key value).Recalls key (some value) ∅ where
  only value' found := by
    have room : 0 < (table.insert key value).capacity := capacity_pos_of_get? found
    exact (table.get?_insert_self key value room).symm.trans found
  kept value' knows room := by
    cases knows
    obtain ⟨n, more⟩ := Nat.exists_eq_succ_of_ne_zero (Nat.ne_of_gt (Nat.zero_lt_of_lt room))
    refine ⟨[], (table.entries.filter (·.1 != key)).take n, ?_, nofun⟩
    have roomFor : table.capacity = n + 1 := more
    simp only [insert, roomFor, List.take_succ_cons, List.nil_append]

/-- What is written under another text comes to stand in front of the entry. -/
theorem Recalls.insert (recalls : table.Recalls key stored others) (distinct : table.Distinct)
    (different : other ≠ key) (new : α) :
    (table.insert other new).Recalls key stored (Insert.insert other others) where
  only value found := by
    rcases of_get?_insert found with ⟨same, -⟩ | before
    · exact absurd same.symm different
    · exact recalls.only value before
  kept value knows room := by
    have fewer : others.card < table.capacity :=
      Nat.lt_of_le_of_lt (Finset.card_le_card (Finset.subset_insert _ _)) room
    obtain ⟨front, back, entries, inFront⟩ := recalls.kept value knows fewer
    have whole : (other, new) :: table.entries.filter (·.1 != other)
        = ((other, new) :: front.filter (·.1 != other))
          ++ (key, value) :: back.filter (·.1 != other) := by
      have stays : (key != other) = true := bne_iff_ne.mpr different.symm
      rw [entries, List.filter_append, List.filter_cons, if_pos stays, List.cons_append]
    have inFront' : ∀ entry ∈ (other, new) :: front.filter (·.1 != other),
        entry.1 ∈ Insert.insert other others ∧ entry.1 ≠ key := by
      refine List.forall_mem_cons.mpr ⟨⟨Finset.mem_insert_self _ _, different⟩, fun entry mem => ?_⟩
      have before := inFront entry (List.mem_of_mem_filter mem)
      exact ⟨Finset.mem_insert_of_mem before.1, before.2⟩
    -- the entries in front have different texts, so there is room for one more
    have few : ((other, new) :: front.filter (·.1 != other)).length < table.capacity := by
      have nodup := whole ▸ distinct.cons_filter other new
      rw [List.map_append] at nodup
      exact Nat.lt_of_le_of_lt
        (length_le_card nodup.of_append_left fun entry mem => (inFront' entry mem).1) room
    obtain ⟨n, more⟩ := Nat.exists_eq_add_of_lt few
    refine ⟨_, (back.filter (·.1 != other)).take n, ?_, inFront'⟩
    calc (table.insert other new).entries
      _ = ((other, new) :: table.entries.filter (·.1 != other)).take table.capacity := rfl
      _ = _ := by
        rw [whole, List.take_append, List.take_of_length_le (Nat.le_of_lt few), more,
          Nat.add_assoc, Nat.add_sub_cancel_left, List.take_succ_cons]

end Recent

/-! ### Runs -/

/-- What is done with a cache. -/
inductive Operation where
  | find (q : Query)
  | store (q : Query) (optimized : Optimized)
  | clear

namespace Operation

def isFind : Operation → Bool
  | find _ => true
  | _ => false

/-- What was stored last under a text in a run, since everything was forgotten.  Nothing is
stored if the hoisted steps forbid it. -/
def latest (key : String) : List Operation → Option Optimized
  | [] => none
  | find _ :: past => latest key past
  | store q optimized :: past =>
    if q.canonical = key ∧ optimized.hoisted.cacheable = true then some optimized
    else latest key past
  | clear :: _ => none

end Operation

namespace QueryCache

variable {cache : QueryCache} {key : String} {capacity : Nat} {past : List Operation}

def perform (cache : QueryCache) : Operation → QueryCache
  | .find q => (cache.find q).2
  | .store q optimized => cache.store q optimized
  | .clear => cache.clear

/-- The cache after a run. -/
def after (cache : QueryCache) : List Operation → QueryCache
  | [] => cache
  | operation :: past => (cache.after past).perform operation

/-- The entry that an operation uses, by storing it or by finding it. -/
def used (cache : QueryCache) : Operation → Option (String × Optimized)
  | .find q => (cache.find q).1.map (q.canonical, ·)
  | .store q optimized =>
    if optimized.hoisted.cacheable = true then some (q.canonical, optimized) else none
  | .clear => none

/-- The other texts of the same shard that were used in a run since a text was used. -/
def rivals (cache : QueryCache) (key : String) : List Operation → Finset String
  | [] => ∅
  | operation :: past =>
    match (cache.after past).used operation with
    | some (other, _) =>
      if other = key then ∅
      else if cache.shardOf other = cache.shardOf key then insert other (cache.rivals key past)
      else cache.rivals key past
    | none => cache.rivals key past

/-- An operation that uses an entry puts it in front of its shard, and any other one that does
not forget everything leaves the shards as they are. -/
theorem shards_perform (cache : QueryCache) {operation : Operation} (kept : operation ≠ .clear) :
    (cache.perform operation).shards = match cache.used operation with
      | some (key, optimized) =>
        cache.shards.modify (cache.shardOf key) (·.insert key optimized)
      | none => cache.shards := by
  cases operation with
  | find q =>
    simp only [perform, find, lookup, used]
    cases found : cache.get? q.canonical with
    | none => rfl
    | some optimized =>
      obtain ⟨table, responsible, entry⟩ := Option.bind_eq_some_iff.mp found
      refine Array.ext_getElem? fun i => ?_
      simp only [count, Option.map_some, Array.getElem?_modify]
      split
      case isTrue here =>
        rw [← here, responsible, Option.map_some, Option.map_some, Recent.touch, entry]
      case isFalse => rfl
  | store q optimized =>
    simp only [perform, store, used]
    split <;> rfl
  | clear => exact absurd rfl kept

@[simp] theorem spread_perform (cache : QueryCache) (operation : Operation) :
    (cache.perform operation).spread = cache.spread := by
  cases operation with
  | find q =>
    simp only [perform, find, lookup]
    cases cache.get? q.canonical <;> rfl
  | store q optimized =>
    simp only [perform, store]
    split <;> rfl
  | clear => rfl

/-- No operation adds a shard, takes one away or changes how much there is room for. -/
theorem capacities_perform (cache : QueryCache) (operation : Operation) :
    (cache.perform operation).shards.map (·.capacity) = cache.shards.map (·.capacity) := by
  by_cases kept : operation = .clear
  · subst kept
    simp only [perform, clear, Array.map_map]
    rfl
  · rw [shards_perform cache kept]
    split
    case h_1 key optimized _ =>
      refine Array.ext_getElem? fun i => ?_
      simp only [Array.getElem?_map, Array.getElem?_modify]
      split
      · rw [Option.map_map]
        rfl
      · rfl
    case h_2 => rfl

theorem capacities_after (cache : QueryCache) (past : List Operation) :
    (cache.after past).shards.map (·.capacity) = cache.shards.map (·.capacity) := by
  induction past with
  | nil => rfl
  | cons operation past ih => exact (capacities_perform _ _).trans ih

theorem shardOf_after (cache : QueryCache) (past : List Operation) (key : String) :
    (cache.after past).shardOf key = cache.shardOf key := by
  have sizes : (cache.after past).shards.size = cache.shards.size := by
    simpa only [Array.size_map] using congrArg Array.size (cache.capacities_after past)
  have spreads : (cache.after past).spread = cache.spread := by
    clear sizes
    induction past with
    | nil => rfl
    | cons operation past ih => exact (spread_perform _ _).trans ih
  rw [shardOf, shardOf, sizes, spreads]

/-! ### What is recalled -/

/-- Whether no shard has two entries of one text. -/
def Distinct (cache : QueryCache) : Prop :=
  ∀ table ∈ cache.shards, table.Distinct

/-- Whether the shard that is responsible for a text knows under it nothing but what was stored
there, unless too many other texts were used. -/
def Recalls (cache : QueryCache) (key : String) (stored : Option Optimized)
    (others : Finset String) : Prop :=
  ∀ table, cache.shards[cache.shardOf key]? = some table → table.Recalls key stored others

variable {stored : Option Optimized} {others : Finset String} {optimized : Optimized}

theorem Distinct.perform (distinct : cache.Distinct) (operation : Operation) :
    (cache.perform operation).Distinct := by
  intro table mem
  by_cases kept : operation = .clear
  · subst kept
    obtain ⟨before, -, rfl⟩ := Array.mem_map.mp mem
    exact Recent.distinct_empty _
  · rw [shards_perform cache kept] at mem
    split at mem
    case h_1 key optimized _ =>
      obtain ⟨i, inside, rfl⟩ := Array.mem_iff_getElem.mp mem
      rw [Array.size_modify] at inside
      have before := distinct _ (Array.getElem_mem inside)
      rw [Array.getElem_modify]
      split
      · exact before.insert key optimized
      · exact before
    case h_2 => exact distinct table mem

theorem Recalls.of_get? (recalls : cache.Recalls key stored others)
    (found : cache.get? key = some optimized) : stored = some optimized := by
  obtain ⟨table, responsible, entry⟩ := Option.bind_eq_some_iff.mp found
  exact (recalls table responsible).only _ entry

/-- A text is used with what was stored last under it. -/
theorem latest_of_used {operation : Operation} {other : String}
    (recalls : cache.Recalls key (Operation.latest key past) others)
    (uses : cache.used operation = some (other, optimized)) :
    Operation.latest key (operation :: past)
      = if other = key then some optimized else Operation.latest key past := by
  cases operation with
  | find q =>
    obtain ⟨_, found, same⟩ := Option.map_eq_some_iff.mp uses
    cases same
    split
    case isTrue here =>
      subst here
      exact recalls.of_get? found
    case isFalse => rfl
  | store q optimized' =>
    simp only [used, Option.ite_none_right_eq_some, Option.some.injEq, Prod.mk.injEq] at uses
    obtain ⟨cacheable, rfl, rfl⟩ := uses
    simp only [Operation.latest, cacheable, and_true]
  | clear => cases uses

theorem latest_of_unused {operation : Operation} (kept : operation ≠ .clear)
    (unused : cache.used operation = none) :
    Operation.latest key (operation :: past) = Operation.latest key past := by
  cases operation with
  | find q => rfl
  | store q optimized =>
    simp only [used, ite_eq_right_iff, reduceCtorEq, imp_false] at unused
    simp only [Operation.latest, unused, and_false, Bool.false_eq_true, if_false]
  | clear => exact absurd rfl kept

/-- **Each operation** preserves what the shards recall, where the texts in front of an entry are
those that were used since. -/
theorem Recalls.perform {start : QueryCache} (distinct : (start.after past).Distinct)
    (recalls : (start.after past).Recalls key (Operation.latest key past) (start.rivals key past))
    (operation : Operation) :
    (start.after (operation :: past)).Recalls key (Operation.latest key (operation :: past))
      (start.rivals key (operation :: past)) := by
  intro table responsible
  rw [shardOf_after, after] at responsible
  by_cases kept : operation = .clear
  · subst kept
    obtain ⟨before, -, rfl⟩ := Option.map_eq_some_iff.mp
      ((Array.getElem?_map ..).symm.trans responsible)
    exact Recent.recalls_empty _
  rw [shards_perform _ kept] at responsible
  cases uses : (start.after past).used operation with
  | none =>
    simp only [uses] at responsible
    simp only [latest_of_unused kept uses, rivals, uses]
    exact recalls table (by rwa [shardOf_after])
  | some entry =>
    obtain ⟨other, optimized⟩ := entry
    simp only [uses, Array.getElem?_modify, shardOf_after] at responsible
    simp only [latest_of_used recalls uses, rivals, uses]
    have recalls' : ∀ table, (start.after past).shards[start.shardOf key]? = some table →
        table.Recalls key (Operation.latest key past) (start.rivals key past) := by
      simpa only [Recalls, shardOf_after] using recalls
    -- the text itself is used, another one of its shard, or one of another shard
    by_cases own : other = key
    · subst own
      rw [if_pos rfl] at responsible
      obtain ⟨before, -, rfl⟩ := Option.map_eq_some_iff.mp responsible
      simpa only [if_true] using before.recalls_insert_self other optimized
    rw [if_neg own, if_neg own]
    split
    case isTrue shared =>
      rw [if_pos shared] at responsible
      obtain ⟨before, here, rfl⟩ := Option.map_eq_some_iff.mp responsible
      exact (recalls' before here).insert (distinct before (Array.mem_of_getElem? here)) own _
    case isFalse apart =>
      rw [if_neg apart] at responsible
      exact recalls' table responsible

/-! ### How much there is room for -/

/-- A shard has room for an even share of the capacity, rounded up. -/
theorem shardCapacity_eq {count : Nat} (positive : 0 < capacity) (anyShard : 0 < count) :
    shardCapacity capacity count = capacity ⌈/⌉ count := by
  have share : 1 ≤ (capacity + count - 1) / count := by
    rw [Nat.le_div_iff_mul_le anyShard]
    omega
  rw [shardCapacity, Nat.max_eq_left anyShard, Nat.max_eq_right share, Nat.ceilDiv_eq_add_pred_div]

/-- Rounding up takes less than one more entry for each shard. -/
theorem mul_ceilDiv_lt {count : Nat} (anyShard : 0 < count) :
    count * (capacity ⌈/⌉ count) < capacity + count := by
  rw [Nat.ceilDiv_eq_add_pred_div]
  have share := Nat.mul_div_le (capacity + count - 1) count
  omega

/-- There are no more entries than there is room for. -/
theorem size_le {room : Nat} (capacities : ∀ table ∈ cache.shards, table.capacity = room) :
    cache.size ≤ cache.shards.size * room := by
  have sum : cache.size = (cache.shards.toList.map Recent.size).sum := by
    rw [size, ← Array.foldl_toList, List.sum_eq_foldl, List.foldl_map]
  have bounded : ∀ n ∈ cache.shards.toList.map Recent.size, n ≤ room := by
    intro n mem
    obtain ⟨table, here, rfl⟩ := List.mem_map.mp mem
    rw [← capacities table (Array.mem_toList_iff.mp here)]
    exact table.size_le
  rw [sum]
  simpa only [List.length_map, Array.length_toList, smul_eq_mul] using
    List.sum_le_card_nsmul _ room bounded

/-- Every look-up is counted, and nothing else is. -/
theorem hits_add_misses_after (cache : QueryCache) (past : List Operation) :
    (cache.after past).hits + (cache.after past).misses
      = cache.hits + cache.misses + past.countP Operation.isFind := by
  induction past with
  | nil => rfl
  | cons operation past ih =>
    cases operation with
    | find q =>
      rw [List.countP_cons_of_pos rfl, ← Nat.add_assoc, ← ih]
      exact hits_add_misses_count _ _ _
    | store q optimized =>
      rw [List.countP_cons_of_neg Bool.false_ne_true, ← ih]
      simp only [after, perform, store]
      split <;> rfl
    | clear =>
      rw [List.countP_cons_of_neg Bool.false_ne_true, ← ih]
      rfl

/-! ### Runs from an empty cache -/

/-- A cache without entries that spreads its texts in a given way. -/
def createBy (spread : String → Nat) (capacity : Nat) (concurrent : Bool) (shards : Nat) :
    QueryCache :=
  { create capacity concurrent shards with spread }

theorem createBy_spread (capacity : Nat) (concurrent : Bool) (shards : Nat) :
    createBy (create capacity concurrent shards).spread capacity concurrent shards
      = create capacity concurrent shards := rfl

variable {spread : String → Nat} {concurrent : Bool} {shards : Nat}

theorem mem_shards_createBy {table : Recent Optimized}
    (mem : table ∈ (createBy spread capacity concurrent shards).shards) :
    table = .empty (shardCapacity capacity (shardCount capacity concurrent shards)) :=
  (Array.mem_replicate.mp mem).2

theorem distinct_after (past : List Operation) :
    ((createBy spread capacity concurrent shards).after past).Distinct := by
  induction past with
  | nil =>
    intro table mem
    rw [mem_shards_createBy mem]
    exact Recent.distinct_empty _
  | cons operation past ih => exact ih.perform operation

theorem recalls_after (key : String) (past : List Operation) :
    ((createBy spread capacity concurrent shards).after past).Recalls key
      (Operation.latest key past)
      ((createBy spread capacity concurrent shards).rivals key past) := by
  induction past with
  | nil =>
    intro table responsible
    rw [mem_shards_createBy (Array.mem_of_getElem? responsible)]
    exact Recent.recalls_empty _
  | cons operation past ih => exact ih.perform (distinct_after past) operation

theorem size_shards_after (past : List Operation) :
    ((createBy spread capacity concurrent shards).after past).shards.size
      = shardCount capacity concurrent shards := by
  have sizes := congrArg Array.size
    ((createBy spread capacity concurrent shards).capacities_after past)
  simp only [Array.size_map] at sizes
  rw [sizes, createBy, create, Array.size_replicate]

theorem capacity_after (positive : 0 < capacity) {table : Recent Optimized}
    (mem : table ∈ ((createBy spread capacity concurrent shards).after past).shards) :
    table.capacity = capacity ⌈/⌉ shardCount capacity concurrent shards := by
  have here : table.capacity
      ∈ ((createBy spread capacity concurrent shards).after past).shards.map (·.capacity) :=
    Array.mem_map_of_mem mem
  rw [capacities_after] at here
  obtain ⟨before, made, same⟩ := Array.mem_map.mp here
  rw [← same, mem_shards_createBy made]
  exact shardCapacity_eq positive (shardCount_pos positive concurrent shards)

/-- **What a look-up finds after a run** of look-ups, stores and clearings is what was stored
last under its text, and it does find this unless as many other texts of the same shard were
used since as the shard has room for.  The number of entries is bounded by the capacity, which
is rounded up for each shard, and each look-up was counted once. -/
theorem find_after {start : QueryCache} {count : Nat} (positive : 0 < capacity)
    (created : start = createBy spread capacity concurrent shards)
    (counted : count = shardCount capacity concurrent shards) (past : List Operation) :
    (∀ q optimized, ((start.after past).find q).1 = some optimized →
      Operation.latest q.canonical past = some optimized) ∧
    (∀ q optimized, Operation.latest q.canonical past = some optimized →
      (start.rivals q.canonical past).card < capacity ⌈/⌉ count →
      ((start.after past).find q).1 = some optimized) ∧
    (start.after past).shards.size = count ∧
    (start.after past).size ≤ count * (capacity ⌈/⌉ count) ∧
    count * (capacity ⌈/⌉ count) < capacity + count ∧
    (count = 1 → count * (capacity ⌈/⌉ count) = capacity) ∧
    (start.after past).hits + (start.after past).misses = past.countP Operation.isFind := by
  subst created counted
  have anyShard := shardCount_pos positive concurrent shards
  refine ⟨fun q optimized found => ?only, fun q optimized knows few => ?kept,
    size_shards_after past, ?size, mul_ceilDiv_lt anyShard, fun one => ?single, ?counts⟩
  case only => exact (recalls_after q.canonical past).of_get? found
  case kept =>
    have inside : ((createBy spread capacity concurrent shards).after past).shardOf q.canonical
        < ((createBy spread capacity concurrent shards).after past).shards.size :=
      Nat.mod_lt _ (by rwa [size_shards_after])
    have responsible := Array.getElem?_eq_getElem inside
    have recalls := recalls_after q.canonical past _ responsible
    refine Option.bind_eq_some_iff.mpr ⟨_, responsible, recalls.get? knows ?_⟩
    rw [capacity_after positive (Array.getElem_mem inside)]
    exact few
  case size =>
    calc ((createBy spread capacity concurrent shards).after past).size
      _ ≤ ((createBy spread capacity concurrent shards).after past).shards.size
          * (capacity ⌈/⌉ shardCount capacity concurrent shards) :=
        size_le fun _ mem => capacity_after positive mem
      _ = _ := by rw [size_shards_after]
  case single => rw [one, Nat.one_mul, ceilDiv_one]
  case counts =>
    rw [hits_add_misses_after]
    exact Nat.zero_add _

/-- Three queries are stored where there is room for two, and the first one is looked up before
the third one is stored. -/
def crowded : List Operation :=
  [.store (.hasProperty "z") ⟨.hasProperty "z", .empty⟩,
    .find (.hasProperty "x"),
    .store (.hasProperty "y") ⟨.hasProperty "y", .empty⟩,
    .store (.hasProperty "x") ⟨.hasProperty "x", .empty⟩]

/-- The one that was looked up is still there, and the other one is forgotten. -/
theorem find_after_crowded :
    (((create 2 false 1).after crowded).find (.hasProperty "x")).1
        = some ⟨.hasProperty "x", .empty⟩ ∧
      (((create 2 false 1).after crowded).find (.hasProperty "y")).1 = none ∧
      ((create 2 false 1).after crowded).size ≤ 2 := by
  obtain ⟨-, kept, -, size, -⟩ :=
    find_after (by decide : 0 < 2) (createBy_spread 2 false 1).symm rfl crowded
  refine ⟨kept _ _ ?_ ?_, ?_, size⟩
  · decide
  · decide
  · decide

end QueryCache

end ExtentQuery.Cache
