import ExtentQuery.Proofs.Evaluation.Remembering

/-!
# One entry for both orders of operands

Queries that differ in the order of commuting operands have the same canonical text.  So a
cache with room for an entry answers both with the optimized query that was made first.

* `Recent.get?_touch_self`, `QueryCache.get?_store_self`, `QueryCache.get?_count_self` — what
  was just written or found is there afterwards;
* `QueryCache.Roomy` — a cache that has room, which no step of a session changes
  (`Session.Reaches.roomy`);
* `Session.optimize_commuted` — optimizing a query and then the same query with operands in
  another order gives the same optimized query, and whatever the second one would have been
  optimized to without the first, it holds the same entities;
* `Rewrite.optimize_crossed` — two orders of operands that are optimized to different
  queries if each is optimized on its own.

**Which factor is taken out.**  An intersection of unions with two operands in common can be
rewritten by taking out either of them.  The rules are tried in a fixed order, and the first
one that matches takes out the operand that comes first.  The order of operands decides
which one this is.
-/

namespace ExtentQuery

open Effect
open Rewrite (Optimized)

namespace Cache

namespace Recent

variable {α : Type} {table : Recent α} {key : String} {value : α}

/-- A table that holds an entry has room for one. -/
theorem capacity_pos_of_get? (found : table.get? key = some value) : 0 < table.capacity := by
  have nonempty : table.entries ≠ [] := by
    intro empty
    simp only [get?, empty, List.lookup_nil, reduceCtorEq] at found
  exact Nat.lt_of_lt_of_le (List.length_pos_iff.mpr nonempty) table.length_le

/-- An entry that is used stays. -/
theorem get?_touch_self (found : table.get? key = some value) :
    (table.touch key).get? key = some value := by
  rw [touch, found]
  exact table.get?_insert_self key value (capacity_pos_of_get? found)

@[simp] theorem capacity_touch : (table.touch key).capacity = table.capacity := by
  unfold touch
  split <;> rfl

end Recent

namespace QueryCache

variable {cache : QueryCache} {key : String} {optimized : Optimized}

/-- Whether there is a shard, and every shard has room for an entry. -/
structure Roomy (cache : QueryCache) : Prop where
  shard : 0 < cache.shards.size
  room : ∀ table ∈ cache.shards, 0 < table.capacity

/-- A change of the shard that is responsible for a text is seen under this text. -/
theorem get?_modify_self {change : Recent Optimized → Recent Optimized} {hits misses : Nat}
    {table : Recent Optimized} (responsible : cache.shards[cache.shardOf key]? = some table) :
    QueryCache.get?
      { cache with shards := cache.shards.modify (cache.shardOf key) change, hits, misses } key
        = (change table).get? key := by
  simp only [get?, shardOf, Array.size_modify, Array.getElem?_modify, if_true]
  rw [← shardOf, responsible]
  rfl

/-- What was just stored is there, if there is room. -/
theorem get?_store_self (roomy : cache.Roomy) (q : Query)
    (cacheable : optimized.hoisted.cacheable = true) :
    (cache.store q optimized).get? q.canonical = some optimized := by
  have inside : cache.shardOf q.canonical < cache.shards.size := Nat.mod_lt _ roomy.shard
  rw [store, if_pos cacheable, put, get?_modify_self (Array.getElem?_eq_getElem inside)]
  exact Recent.get?_insert_self _ _ _ (roomy.room _ (Array.getElem_mem inside))

/-- What was just found is still there. -/
theorem get?_count_self {looked : Option Optimized} (found : cache.get? key = some optimized) :
    (cache.count key looked).get? key = some optimized := by
  obtain ⟨table, responsible, entry⟩ := Option.bind_eq_some_iff.mp found
  cases looked with
  | none => exact found
  | some => exact (get?_modify_self responsible).trans (Recent.get?_touch_self entry)

/-! ### Room -/

theorem shardCount_pos {capacity : Nat} (positive : 0 < capacity) (concurrent : Bool)
    (shards : Nat) : 0 < shardCount capacity concurrent shards := by
  rw [shardCount, if_neg (Nat.ne_of_gt positive)]
  split <;> omega

theorem roomy_create {capacity : Nat} (positive : 0 < capacity) (concurrent : Bool)
    (shards : Nat) : (create capacity concurrent shards).Roomy where
  shard := by
    simpa only [create, Array.size_replicate] using shardCount_pos positive concurrent shards
  room table mem := by
    obtain ⟨-, rfl⟩ := Array.mem_replicate.mp mem
    exact Nat.le_max_left _ _

/-- A change that keeps the capacity of every table leaves the room there is. -/
theorem Roomy.modify {change : Recent Optimized → Recent Optimized} {hits misses : Nat}
    (roomy : cache.Roomy) (keeps : ∀ table, (change table).capacity = table.capacity) (n : Nat) :
    Roomy { cache with shards := cache.shards.modify n change, hits, misses } where
  shard := by
    rw [Array.size_modify]
    exact roomy.shard
  room table mem := by
    obtain ⟨i, inside, rfl⟩ := Array.mem_iff_getElem.mp mem
    rw [Array.size_modify] at inside
    have before := roomy.room _ (Array.getElem_mem inside)
    simp only [Array.getElem_modify]
    split
    · rw [keeps]
      exact before
    · exact before

theorem Roomy.count {looked : Option Optimized} (roomy : cache.Roomy) :
    (cache.count key looked).Roomy := by
  cases looked with
  | none => exact ⟨roomy.shard, roomy.room⟩
  | some => exact roomy.modify (fun _ => Recent.capacity_touch) _

theorem Roomy.store {q : Query} (roomy : cache.Roomy) : (cache.store q optimized).Roomy := by
  unfold QueryCache.store
  split
  · have keeps : ∀ table : Recent Optimized,
        (table.insert q.canonical optimized).capacity = table.capacity := fun _ => rfl
    exact roomy.modify keeps _
  · exact roomy

theorem Roomy.clear (roomy : cache.Roomy) : cache.clear.Roomy where
  shard := by
    rw [QueryCache.clear, Array.size_map]
    exact roomy.shard
  room table mem := by
    obtain ⟨before, here, rfl⟩ := Array.mem_map.mp mem
    exact roomy.room before here

end QueryCache

end Cache

/-- A query whose text stands for an entry is answered with the entry. -/
theorem Engine.optimize_of_hit {engine : Engine} {q : Query} {s : State} {optimized : Optimized}
    (found : s.cache.get? q.canonical = some optimized) :
    engine.optimize q s = .ok optimized { s with
      cache := s.cache.count q.canonical (some optimized)
      work := s.work.add .optimization } := by
  simp only [Engine.optimize, Cache.QueryCache.find, Cache.QueryCache.lookup, bind, EStateM.bind,
    modifyGet, MonadStateOf.modifyGet, EStateM.modifyGet, found]
  rfl

namespace Session

variable {session : Session} {a b q : Query} {s s' : State} {optimized : Optimized}

/-- A session neither adds shards nor takes room away. -/
theorem Reaches.roomy (roomy : session.start.cache.Roomy) (reached : session.Reaches s) :
    s.cache.Roomy := by
  induction reached with
  | refl => exact roomy
  | tail _ step ih =>
    cases step with
    | lookedUp => exact ih.count
    | remembered => exact ih.store
    | forgot => exact ih.clear
    | _ => exact ih

/-- What was just made of a query without sort steps is remembered. -/
theorem get?_of_optimizeNow (roomy : s.cache.Roomy) (unsorted : q.unsorted = true)
    (ran : session.engine.optimizeNow q s = .ok optimized s') :
    s'.cache.get? q.canonical = some optimized := by
  unfold Engine.optimizeNow at ran
  cases found : (Rewrite.optimize session.engine.settings.maxRewrites q).run [] with
  | error fault notices =>
    simp only [found] at ran
    obtain ⟨_, _, _, throwing⟩ := Effect.exists_of_bind ran
    cases throwing
  | ok made notices =>
    simp only [found] at ran
    obtain ⟨_, s₁, reporting, ran⟩ := Effect.exists_of_bind ran
    have same : s₁.cache = s.cache := (remembersNothing_forM remembersNothing_report _ reporting).cache
    cases ran
    have cacheable : optimized.hoisted.cacheable = true := by
      rw [(Rewrite.unsorted_optimize found unsorted).2]
      rfl
    show (s₁.cache.store q optimized).get? q.canonical = some optimized
    rw [same]
    exact Cache.QueryCache.get?_store_self roomy q cacheable

/-- The optimized form of a query without sort steps is remembered, whether it was just made
or found. -/
theorem get?_of_optimize (roomy : s.cache.Roomy) (unsorted : q.unsorted = true)
    (ran : session.engine.optimize q s = .ok optimized s') :
    s'.cache.get? q.canonical = some optimized := by
  obtain ⟨found, s₁, lookUp, ran⟩ := Effect.exists_of_bind ran
  obtain ⟨rfl, rfl⟩ : found = s.cache.get? q.canonical ∧
      s₁ = { s with cache := s.cache.count q.canonical (s.cache.get? q.canonical) } := by
    cases lookUp
    exact ⟨rfl, rfl⟩
  cases here : s.cache.get? q.canonical with
  | some entry =>
    simp only [here] at ran
    obtain ⟨_, _, making, ran⟩ := Effect.exists_of_bind ran
    obtain ⟨_, _, counting, ran⟩ := Effect.exists_of_bind ran
    cases making
    cases counting
    cases ran
    exact Cache.QueryCache.get?_count_self here
  | none =>
    simp only [here] at ran
    obtain ⟨_, _, making, ran⟩ := Effect.exists_of_bind ran
    obtain ⟨_, _, counting, ran⟩ := Effect.exists_of_bind ran
    have counted : (s.cache.count q.canonical none).Roomy := roomy.count
    have made := get?_of_optimizeNow counted unsorted making
    cases counting
    cases ran
    exact made

/-- What is remembered under the text of a query is answered at once. -/
theorem exists_optimize_of_get? (found : s.cache.get? q.canonical = some optimized) :
    ∃ s', session.engine.optimize q s = .ok optimized s' :=
  ⟨_, Engine.optimize_of_hit found⟩

/-- **Both orders of operands share an entry.**  After a query without sort steps was
optimized, a query that differs from it in the order of operands only is answered with the
very same optimized query, in every session whose cache has room.  Optimized on its own, in
whichever state of the session, it may be answered with another one, which holds the same
entities. -/
theorem optimize_commuted (fresh : session.Fresh) (roomy : session.start.cache.Roomy)
    (commuted : a.Commuted b) (unsorted : a.unsorted = true) (legible : a.legible = true)
    (legible' : b.legible = true) (history : session.ReachesBy (·.legible = true) s)
    (ran : session.engine.optimize a s = .ok optimized s') :
    (∃ s'', session.engine.optimize b s' = .ok optimized s'') ∧
      ∀ ⦃t t' : State⦄ ⦃other : Optimized⦄, session.ReachesBy (·.legible = true) t →
        session.engine.optimize b t = .ok other t' →
        ∀ v : Reading, (∀ link targets targets' targetType,
            v.leaf (.linkedInto link targets targetType)
              = v.leaf (.linkedInto link targets' targetType)) →
          v.holds other.query = v.holds optimized.query := by
  constructor
  · have entry := get?_of_optimize (history.reaches.roomy roomy) unsorted ran
    rw [Query.canonical_of_commuted commuted] at entry
    exact exists_optimize_of_get? entry
  · intro t t' other history' ran' v decorated
    obtain ⟨-, optimizes, -⟩ := (sound_of_reachesBy fresh history).optimize legible ran
    obtain ⟨-, optimizes', -⟩ := (sound_of_reachesBy fresh history').optimize legible' ran'
    calc v.holds other.query
      _ = v.holds b := holds_of_optimizes v decorated optimizes'
      _ = v.holds a := (v.fair.toCommutes.of_commuted decorated commuted).symm
      _ = v.holds optimized.query := (holds_of_optimizes v decorated optimizes).symm

end Session

/-! ### Two operands in common -/

namespace Query

/-- An intersection of unions that have both operands in common. -/
def crossed : Query :=
  inter (union (hasProperty "x") (hasProperty "y")) (union (hasProperty "y") (hasProperty "x"))

/-- The same intersection, with its operands the other way round. -/
def crossedBack : Query :=
  inter (union (hasProperty "y") (hasProperty "x")) (union (hasProperty "x") (hasProperty "y"))

end Query

set_option maxRecDepth 10000 in
/-- The second order is answered with what was made of the first one. -/
theorem Session.optimize_commuted_crossed :
    ∃ s s', animals.engine.optimize .crossed animals.start
        = .ok ⟨.union (.hasProperty "y") (.inter (.hasProperty "x") (.hasProperty "x")), .empty⟩ s ∧
      animals.engine.optimize .crossedBack s
        = .ok ⟨.union (.hasProperty "y") (.inter (.hasProperty "x") (.hasProperty "x")), .empty⟩
          s' := by
  have first : EStateM.run' (animals.engine.optimize .crossed) animals.start
      = some ⟨.union (.hasProperty "y") (.inter (.hasProperty "x") (.hasProperty "x")), .empty⟩ := by
    decide +kernel
  obtain ⟨s, ran⟩ := Effect.exists_of_run' first
  have roomy : animals.start.cache.Roomy :=
    Cache.QueryCache.roomy_create (by decide) false 1
  obtain ⟨⟨s', again⟩, -⟩ := optimize_commuted fresh_animals roomy
    (Query.Commuted.inter_comm _ _ : Query.crossed.Commuted .crossedBack) rfl rfl rfl .refl ran
  exact ⟨s, s', ran, again⟩

set_option maxRecDepth 100000 in
/-- Each order of operands is optimized to a query of its own, within the budget and at
rest, and the two have different texts. -/
theorem Rewrite.optimize_crossed :
    ∃ u w : Query, optimize 100 .crossed [] = .ok ⟨u, .empty⟩ [] ∧
      optimize 100 .crossedBack [] = .ok ⟨w, .empty⟩ [] ∧ u.canonical ≠ w.canonical := by
  refine ⟨.union (.hasProperty "y") (.inter (.hasProperty "x") (.hasProperty "x")),
    .union (.hasProperty "x") (.inter (.hasProperty "y") (.hasProperty "y")), ?_, ?_, ?_⟩
  · decide +kernel
  · decide +kernel
  · decide

end ExtentQuery
