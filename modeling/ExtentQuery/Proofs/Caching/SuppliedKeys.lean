import ExtentQuery.Proofs.Caching.Serving
import ExtentQuery.Proofs.Rewriting.Taking

/-!
# Sorts by supplied keys in the cache

What is stored for a query depends on the sort steps that were taken out of it: one step by a
supplied key among them, and nothing is stored.  Only these steps are asked.

* `QueryCache.Cacheable` — a cache that holds no entry with a supplied key among its steps,
  which no step of a session changes (`Session.ReachesBy.cacheable`);
* `Query.all_cacheable_of_commuted` — operands in another order do not bring in supplied keys
  or take them away;
* `Session.find_optimize` — whether a query is found after it was optimized, from its sort
  steps alone;
* `Session.find_optimize_keyed` — a step by a supplied key in a decorated query, or below the
  steps there is room for, does not keep a query out of the cache.

**Entries of other queries.**  A query with operands in another order shares the entry.  It has
the same steps, but where there are more of them than there is room for, other ones may be the
first.  So what is found may then have been stored for the other query.
-/

namespace ExtentQuery

open Rewrite (Optimized Hoisted maxHoisted)

/-! ### Entries without supplied keys -/

namespace Cache.QueryCache

variable {cache : QueryCache} {optimized : Optimized}

/-- Whether no entry has a supplied key among its hoisted steps. -/
def Cacheable (cache : QueryCache) : Prop :=
  ∀ key optimized, cache.get? key = some optimized → optimized.hoisted.cacheable = true

/-- What is stored has no supplied key among its steps, or it is not stored. -/
theorem Cacheable.store (cacheable : cache.Cacheable) (q : Query) (optimized : Optimized) :
    (cache.store q optimized).Cacheable := by
  by_cases stored : optimized.hoisted.cacheable = true
  · intro key optimized' found
    rcases of_get?_store found with ⟨-, rfl⟩ | before
    · exact stored
    · exact cacheable key optimized' before
  · rw [QueryCache.store, if_neg stored]
    exact cacheable

theorem Cacheable.count {key : String} {looked : Option Optimized} (cacheable : cache.Cacheable) :
    (cache.count key looked).Cacheable :=
  fun key' optimized found => cacheable key' optimized (of_get?_count found)

theorem Cacheable.clear : cache.clear.Cacheable := by
  intro key optimized found
  rw [get?_clear] at found
  cases found

end Cache.QueryCache

/-- A session that starts with an empty cache never has an entry with a supplied key among its
hoisted steps. -/
theorem Session.ReachesBy.cacheable {session : Session} {allowed : Query → Prop} {s : State}
    (fresh : session.Fresh) (reached : session.ReachesBy allowed s) : s.cache.Cacheable := by
  induction reached with
  | refl =>
    intro key optimized found
    rw [fresh.nothingRemembered] at found
    cases found
  | tail _ step ih =>
    cases step with
    | lookedUp => exact ih.count
    | remembered => exact ih.store _ _
    | forgot => exact Cache.QueryCache.Cacheable.clear
    | _ => exact ih

/-! ### Sort steps of a query -/

namespace SortStep

/-- A canonical text tells supplied keys from the other ones. -/
theorem cacheable_of_alike {a b : SortStep} (alike : a.Alike b) : a.cacheable = b.cacheable := by
  cases a <;> cases b <;> first | rfl | cases alike

end SortStep

namespace Query

variable {a b : Query}

/-- Queries that differ in the order of operands have the same number of sort steps, and as many
of them by supplied keys. -/
theorem cacheable_orders_of_commuted (commuted : a.Commuted b) :
    (a.orders.map SortStep.cacheable).Perm (b.orders.map SortStep.cacheable) := by
  induction commuted with
  | refl => exact .refl _
  | trans _ _ first second => exact first.trans second
  | inter_comm | union_comm => exact List.perm_append_comm.map _
  | root _ ih | compl _ ih => exact ih
  | inter _ _ left right | union _ _ left right | diff _ _ left right | concat _ _ left right =>
    simp only [orders, List.map_append]
    exact left.append right
  | sort alike _ ih =>
    simp only [orders, List.map_cons, SortStep.cacheable_of_alike alike]
    exact ih.cons _
  | linkedInto => exact .refl _

theorem all_cacheable_of_commuted (commuted : a.Commuted b) :
    a.orders.all SortStep.cacheable = b.orders.all SortStep.cacheable := by
  have same := (cacheable_orders_of_commuted commuted).all_eq (f := id)
  rw [List.all_map, List.all_map] at same
  exact same

theorem length_orders_of_commuted (commuted : a.Commuted b) :
    a.orders.length = b.orders.length := by
  have same := (cacheable_orders_of_commuted commuted).length_eq
  rw [List.length_map, List.length_map] at same
  exact same

/-- The sort steps that optimization takes out of a query, in the order in which a reader meets
them. -/
def firstOrders (q : Query) : List SortStep :=
  q.orders.take maxHoisted

end Query

/-! ### What is found after an optimization -/

/-- Whether the result of an optimization is stored depends on the first sort steps of the
query. -/
theorem Rewrite.cacheable_optimize {maxRewrites : Nat} {q : Query} {optimized : Optimized}
    {log log' : List Notice} (found : optimize maxRewrites q log = .ok optimized log') :
    optimized.hoisted.cacheable = q.firstOrders.all SortStep.cacheable := by
  rw [Hoisted.cacheable, hoisted_optimize found, List.all_reverse, Query.firstOrders]

namespace Session

variable {session : Session} {q : Query} {s : State} {optimized : Optimized}

/-- What is found under the text of a query without more sort steps than there is room for has
no supplied key among them. -/
theorem all_cacheable_of_get? (fresh : session.Fresh)
    (history : session.ReachesBy (·.legible = true) s) (legible : q.legible = true)
    (few : q.orders.length ≤ maxHoisted) (found : s.cache.get? q.canonical = some optimized) :
    q.firstOrders.all SortStep.cacheable = true := by
  obtain ⟨q', text, legible', notices, made⟩ := remembers_of_reachesBy fresh history _ optimized found
  have commuted : q'.Commuted q := Query.commuted_of_canonical legible' legible text
  have few' : q'.orders.length ≤ maxHoisted := by
    rw [Query.length_orders_of_commuted commuted]
    exact few
  calc q.firstOrders.all SortStep.cacheable
    _ = q.orders.all SortStep.cacheable := by rw [Query.firstOrders, List.take_of_length_le few]
    _ = q'.orders.all SortStep.cacheable := (Query.all_cacheable_of_commuted commuted).symm
    _ = q'.firstOrders.all SortStep.cacheable := by
      rw [Query.firstOrders, List.take_of_length_le few']
    _ = optimized.hoisted.cacheable := (Rewrite.cacheable_optimize made).symm
    _ = true := history.cacheable fresh _ optimized found

/-- **Whether a query is found after it was optimized** depends on the first of its sort steps,
as many as are taken out of it, and on nothing else: not on the steps below them, and not on the
steps of decorated queries.  If one of them sorts by a supplied key, no table of the cache is
written and the query is not found, otherwise it is found, in every session whose cache has
room.  A query with more steps may also be found because one with operands in another order was
stored before. -/
theorem find_optimize (fresh : session.Fresh) (history : session.ReachesBy (·.legible = true) s)
    (legible : q.legible = true)
    (unshared : q.orders.length ≤ maxHoisted ∨ s.cache.get? q.canonical = none) :
    ∃ optimized s', session.engine.optimize q s = .ok optimized s' ∧
      (q.firstOrders.all SortStep.cacheable = false →
        s'.cache.shards = s.cache.shards ∧ (s'.cache.find q).1 = none) ∧
      (q.firstOrders.all SortStep.cacheable = true → session.start.cache.Roomy →
        (s'.cache.find q).1 = some optimized) := by
  cases entry : s.cache.get? q.canonical with
  | some optimized =>
    have few : q.orders.length ≤ maxHoisted :=
      unshared.resolve_right fun missed => nomatch entry.symm.trans missed
    have cacheable := all_cacheable_of_get? fresh history legible few entry
    refine ⟨optimized, _, Engine.optimize_of_hit entry, ?_, fun _ _ => ?_⟩
    · rw [cacheable]
      exact nofun
    · exact Cache.QueryCache.get?_count_self entry
  | none =>
    obtain ⟨optimized, notices, made⟩ := Rewrite.optimize_total session.settings.maxRewrites
      (Query.ground_of_legible legible) []
    refine ⟨optimized, _, Engine.optimize_of_miss entry made, fun supplied => ?_,
      fun cacheable roomy => ?_⟩
    · have kept : (s.cache.count q.canonical none).store q optimized
          = s.cache.count q.canonical none := by
        rw [Cache.QueryCache.store, Rewrite.cacheable_optimize made, supplied]
        rfl
      simp only [kept]
      exact ⟨rfl, entry⟩
    · rw [← Rewrite.cacheable_optimize made] at cacheable
      exact Cache.QueryCache.get?_store_self (history.reaches.roomy roomy).count q cacheable

end Session

/-! ### Supplied keys that are not asked -/

namespace Query

/-- Everything, by the number within the type, which is a supplied key. -/
def numbered : Query :=
  .sort (.key 0 "number" .localId true) .all

/-- A sort by a supplied key below four other ones. -/
def numberedFirst : Query :=
  .sort (.property "a" true) (.sort (.property "b" true) (.sort (.property "c" true)
    (.sort (.property "d" true) numbered)))

/-- What an animal owns, and the animals are sorted by a supplied key. -/
def ownedByNumbered : Query :=
  .linkedInto "owner" numbered "animal"

end Query

/-- A sort by a supplied key at the top of a query keeps it out of the cache, and one below four
other sorts does not. -/
theorem Session.find_optimize_numbered :
    (∃ optimized s, animals.engine.optimize .numbered animals.start = .ok optimized s ∧
      (s.cache.find .numbered).1 = none) ∧
    ∃ optimized s, animals.engine.optimize .numberedFirst animals.start = .ok optimized s ∧
      (s.cache.find .numberedFirst).1 = some optimized := by
  have roomy : animals.start.cache.Roomy := Cache.QueryCache.roomy_create (by decide) false 1
  obtain ⟨optimized, s, ran, unstored, -⟩ :=
    find_optimize (q := .numbered) fresh_animals .refl rfl (.inl (by decide))
  obtain ⟨optimized', s', ran', -, stored⟩ :=
    find_optimize (q := .numberedFirst) fresh_animals .refl rfl
      (.inr (fresh_animals.nothingRemembered _))
  exact ⟨⟨optimized, s, ran, (unstored rfl).2⟩, optimized', s', ran', stored rfl roomy⟩

set_option maxRecDepth 100000 in
/-- Neither a supplied key below the steps that there is room for nor one in a decorated query
keeps the query out of the cache. -/
theorem Session.find_optimize_keyed :
    (Query.numberedFirst.usesSuppliedKey = true ∧
      ∃ optimized s, animals.engine.optimize .numberedFirst animals.start = .ok optimized s ∧
        (s.cache.find .numberedFirst).1 = some optimized) ∧
    Query.ownedByNumbered.usesSuppliedKey = true ∧
      ∃ optimized s, animals.engine.optimize .ownedByNumbered animals.start = .ok optimized s ∧
        (s.cache.find .ownedByNumbered).1 = some optimized := by
  have found : ∀ q, EStateM.run' (do
        let optimized ← animals.engine.optimize q
        let s ← get
        return decide ((s.cache.find q).1 = some optimized)) animals.start = some true →
      ∃ optimized s, animals.engine.optimize q animals.start = .ok optimized s ∧
        (s.cache.find q).1 = some optimized := by
    intro q ran
    obtain ⟨s', ran⟩ := Effect.exists_of_run' ran
    obtain ⟨optimized, s, optimizing, ran⟩ := Effect.exists_of_bind ran
    obtain ⟨_, _, reading, ran⟩ := Effect.exists_of_bind ran
    cases reading
    refine ⟨optimized, s, optimizing, of_decide_eq_true ?_⟩
    injection ran
  exact ⟨⟨rfl, found _ (by decide +kernel)⟩, rfl, found _ (by cbv)⟩

end ExtentQuery
