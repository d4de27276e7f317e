import ExtentQuery.Proofs.Caching.Recency
import ExtentQuery.Proofs.Caching.SuppliedKeys

/-!
# Asking a cache for several queries, and asking again

Whoever asks a cache for the optimized form of a query that it does not remember makes it and
stores it.  So asking for a list of queries leaves traces: entries come to the front, and others
are forgotten.  Asking for the same list once more leaves nothing new, if the answers are the
same.

* `QueryCache.ask`, `QueryCache.askAll`, `QueryCache.answersTo` — what asking leaves behind, and
  what is answered;
* `Recent.insertAll_insertAll` — writing the same entries twice is writing them once;
* `QueryCache.askAll_again` — asking for queries of different texts for the second time changes
  nothing, if it is answered as before;
* `QueryCache.answersTo_of_owns`, `QueryCache.answersTo_again` — it is, if nothing was remembered
  under the texts but what is made of the queries, or if every shard has room for all of them.

**When the answers differ.**  An entry that was made of another query with the same text is
answered the first time and, if the queries that come after it push it out, not the second time.
-/

namespace ExtentQuery.Cache

open Rewrite (Optimized)

/-! ### One shard -/

namespace Recent

variable {α : Type} {table : Recent α} {added : List (String × α)} {key : String} {value : α}

/-- Writes entries, one after the other. -/
def insertAll (table : Recent α) (added : List (String × α)) : Recent α :=
  added.foldl (fun table entry => table.insert entry.1 entry.2) table

theorem insertAll_concat (table : Recent α) (added : List (String × α)) (entry : String × α) :
    table.insertAll (added ++ [entry]) = (table.insertAll added).insert entry.1 entry.2 := by
  simp only [insertAll, List.foldl_append, List.foldl_cons, List.foldl_nil]

theorem entries_insert (table : Recent α) (entry : String × α) :
    (table.insert entry.1 entry.2).entries
      = (entry :: table.entries.filter (·.1 != entry.1)).take table.capacity := rfl

@[simp] theorem capacity_insertAll (table : Recent α) (added : List (String × α)) :
    (table.insertAll added).capacity = table.capacity := by
  induction added using List.reverseRecOn with
  | nil => rfl
  | append_singleton added entry ih => rw [insertAll_concat]; exact ih

/-- Of entries with different texts, at most one has a given text. -/
theorem take_filter_take {entries : List (String × α)} (distinct : (entries.map (·.1)).Nodup)
    (key : String) (n : Nat) :
    ((entries.take (n + 1)).filter (·.1 != key)).take n
      = (entries.filter (·.1 != key)).take n := by
  induction entries generalizing n with
  | nil => rfl
  | cons entry entries ih =>
    obtain ⟨fresh, distinct⟩ := List.nodup_cons.mp distinct
    by_cases same : entry.1 = key
    · have others : ∀ other ∈ entries, (other.1 != key) = true := by
        intro other mem
        refine bne_iff_ne.mpr fun also => fresh ?_
        exact List.mem_map.mpr ⟨other, mem, also.trans same.symm⟩
      rw [List.take_succ_cons, List.filter_cons_of_neg (by simp [same]),
        List.filter_cons_of_neg (by simp [same]), List.filter_eq_self.mpr others,
        List.filter_eq_self.mpr fun other mem => others other (List.mem_of_mem_take mem),
        List.take_take, Nat.min_self]
    · rw [List.take_succ_cons, List.filter_cons_of_pos (by simp [same]),
        List.filter_cons_of_pos (by simp [same])]
      cases n with
      | zero => rfl
      | succ n => rw [List.take_succ_cons, List.take_succ_cons, ih distinct n]

/-- The entries of other texts than those of a list. -/
def besides (table : Recent α) (added : List (String × α)) : List (String × α) :=
  table.entries.filter fun entry => !(added.map (·.1)).contains entry.1

/-- Entries of different texts that are written come to stand in front, the last one first. -/
theorem entries_insertAll (distinct : table.Distinct) (different : (added.map (·.1)).Nodup) :
    (table.insertAll added).entries
      = (added.reverse ++ table.besides added).take table.capacity := by
  induction added using List.reverseRecOn with
  | nil =>
    have all : table.besides [] = table.entries := by simp [besides]
    rw [all, List.reverse_nil, List.nil_append, List.take_of_length_le table.length_le]
    rfl
  | append_singleton added entry ih =>
    rw [List.map_append, List.nodup_append] at different
    obtain ⟨different, -, apart⟩ := different
    have other : ∀ before ∈ added, (before.1 != entry.1) = true := fun before mem =>
      bne_iff_ne.mpr (apart _ (List.mem_map_of_mem mem) _ (List.mem_singleton_self _))
    have inFront : ((added.reverse ++ table.besides added).map (·.1)).Nodup := by
      rw [List.map_append, List.map_reverse, List.nodup_append]
      refine ⟨List.nodup_reverse.mpr different,
        List.Nodup.sublist (List.filter_sublist.map _) distinct, ?_⟩
      rintro text mem _ mem' rfl
      obtain ⟨before, here, rfl⟩ := List.mem_map.mp mem'
      have outside := (List.mem_filter.mp here).2
      simp only [Bool.not_eq_true', List.contains_eq_mem, decide_eq_false_iff_not] at outside
      exact outside (List.mem_reverse.mp mem)
    have filtered : (added.reverse ++ table.besides added).filter (·.1 != entry.1)
        = added.reverse ++ table.besides (added ++ [entry]) := by
      rw [List.filter_append,
        List.filter_eq_self.mpr fun before mem => other before (List.mem_reverse.mp mem), besides,
        besides, List.filter_filter]
      refine congrArg _ (List.filter_congr fun before _ => ?_)
      simp only [List.map_append, List.map_cons, List.map_nil, List.contains_append,
        List.contains_cons, List.contains_nil, Bool.or_false, Bool.not_or, bne, Bool.and_comm]
    rw [insertAll_concat, entries_insert, ih different, capacity_insertAll, List.reverse_concat,
      List.cons_append, ← filtered]
    cases table.capacity with
    | zero => rfl
    | succ n => rw [List.take_succ_cons, List.take_succ_cons, take_filter_take inFront]

theorem ext_of_entries {table table' : Recent α} (capacities : table.capacity = table'.capacity)
    (entries : table.entries = table'.entries) : table = table' := by
  cases table
  cases table'
  cases capacities
  cases entries
  rfl

theorem Distinct.insertAll (distinct : table.Distinct) (added : List (String × α)) :
    (table.insertAll added).Distinct := by
  induction added using List.reverseRecOn with
  | nil => exact distinct
  | append_singleton added entry ih =>
    rw [insertAll_concat]
    exact ih.insert entry.1 entry.2

theorem Distinct.touch (distinct : table.Distinct) (key : String) :
    (table.touch key).Distinct := by
  unfold Recent.touch
  split
  · exact distinct.insert key _
  · exact distinct

/-- Writing entries of different texts twice is writing them once. -/
theorem insertAll_insertAll (distinct : table.Distinct) (different : (added.map (·.1)).Nodup) :
    (table.insertAll added).insertAll added = table.insertAll added := by
  refine ext_of_entries (by simp only [capacity_insertAll]) ?_
  have own : ∀ n, (added.reverse.take n).filter
      (fun entry => !(added.map (·.1)).contains entry.1) = [] := by
    intro n
    refine List.filter_eq_nil_iff.mpr fun entry mem => ?_
    have here := List.mem_map_of_mem (f := (·.1)) (List.mem_reverse.mp (List.mem_of_mem_take mem))
    simp only [Bool.not_eq_true', List.contains_eq_mem, decide_eq_false_iff_not, not_not]
    exact here
  have others : ∀ n, ((table.besides added).take n).filter
      (fun entry => !(added.map (·.1)).contains entry.1) = (table.besides added).take n := fun n =>
    List.filter_eq_self.mpr fun entry mem => (List.mem_filter.mp (List.mem_of_mem_take mem)).2
  have rest : (table.insertAll added).besides added
      = (table.besides added).take (table.capacity - added.reverse.length) := by
    rw [besides, entries_insertAll distinct different, List.take_append, List.filter_append, own,
      others, List.nil_append]
  rw [entries_insertAll (distinct.insertAll added) different, rest, capacity_insertAll,
    entries_insertAll distinct different, List.take_append, List.take_append, List.take_take,
    Nat.min_self]

/-- Entries of different texts are all there after they were written, if there is room. -/
theorem get?_insertAll (distinct : table.Distinct) (different : (added.map (·.1)).Nodup)
    (room : added.length ≤ table.capacity) (mem : (key, value) ∈ added) :
    (table.insertAll added).get? key = some value := by
  obtain ⟨before, after, rfl⟩ := List.append_of_mem mem
  have later : ∀ entry ∈ after.reverse, (key != entry.1) = true := by
    intro entry here
    rw [List.map_append, List.map_cons] at different
    refine bne_iff_ne.mpr fun same => (List.nodup_cons.mp different.of_append_right).1 ?_
    exact List.mem_map.mpr ⟨entry, List.mem_reverse.mp here, same.symm⟩
  rw [get?, entries_insertAll distinct different, List.take_append,
    List.take_of_length_le (by rwa [List.length_reverse]), List.reverse_append, List.reverse_cons,
    List.append_assoc, List.append_assoc, List.singleton_append]
  exact List.lookup_eq_some_iff.mpr ⟨after.reverse, _, rfl, later⟩

/-- What is found makes room for itself, so using it leaves everything there. -/
theorem get?_touch (found : table.get? key = some value) (key' : String) :
    (table.touch key).get? key' = table.get? key' := by
  obtain ⟨front, back, entries, -⟩ := List.lookup_eq_some_iff.mp found
  have fits : ((key, value) :: table.entries.filter (·.1 != key)).length ≤ table.capacity := by
    refine Nat.le_trans ?_ table.length_le
    rw [entries, List.filter_append, List.filter_cons_of_neg (by simp)]
    have left := List.length_filter_le (·.1 != key) front
    have right := List.length_filter_le (·.1 != key) back
    simp only [List.length_cons, List.length_append]
    omega
  rw [touch, found]
  show List.lookup key' (List.take table.capacity _) = _
  rw [List.take_of_length_le fits]
  by_cases same : key' = key
  · rw [same, List.lookup_cons_self]
    exact found.symm
  · rw [List.lookup_cons, beq_false_of_ne same]
    exact lookup_filter_ne same table.entries

end Recent

/-! ### The cache -/

namespace QueryCache

variable {cache : QueryCache} {key : String} {optimized : Optimized} {q : Query}

theorem Distinct.count {looked : Option Optimized} (distinct : cache.Distinct) :
    (cache.count key looked).Distinct := by
  cases looked with
  | none => exact distinct
  | some optimized =>
    intro table mem
    obtain ⟨i, inside, rfl⟩ := Array.mem_iff_getElem.mp mem
    simp only [QueryCache.count, Array.size_modify] at inside
    have before := distinct _ (Array.getElem_mem inside)
    simp only [QueryCache.count, Array.getElem_modify]
    split
    · exact before.touch key
    · exact before

/-- The cache without its counts. -/
def bare (cache : QueryCache) : QueryCache :=
  { cache with hits := 0, misses := 0 }

/-- Writes entries, one after the other. -/
def putAll (cache : QueryCache) (added : List (String × Optimized)) : QueryCache :=
  added.foldl (fun cache entry => cache.put entry.1 entry.2) cache

theorem bare_putAll (cache : QueryCache) (added : List (String × Optimized)) :
    (cache.putAll added).bare = cache.bare.putAll added := by
  induction added generalizing cache with
  | nil => rfl
  | cons entry added ih => exact ih (cache.put entry.1 entry.2)

theorem shardOf_put (cache : QueryCache) (key : String) (optimized : Optimized) (key' : String) :
    (cache.put key optimized).shardOf key' = cache.shardOf key' := by
  simp only [shardOf, put, Array.size_modify]

/-- Every shard gets the entries that it is responsible for. -/
theorem getElem?_putAll (cache : QueryCache) (added : List (String × Optimized)) (i : Nat) :
    (cache.putAll added).shards[i]?
      = cache.shards[i]?.map (·.insertAll (added.filter (cache.shardOf ·.1 == i))) := by
  induction added generalizing cache with
  | nil =>
    show cache.shards[i]? = cache.shards[i]?.map fun table => table
    rw [Option.map_id']
  | cons entry added ih =>
    refine (ih (cache.put entry.1 entry.2)).trans ?_
    simp only [shardOf_put]
    rw [put, Array.getElem?_modify]
    by_cases here : cache.shardOf entry.1 = i
    · rw [if_pos here, Option.map_map, List.filter_cons_of_pos (by simp [here])]
      rfl
    · rw [if_neg here, List.filter_cons_of_neg (by simp [here])]

theorem spread_putAll (cache : QueryCache) (added : List (String × Optimized)) :
    (cache.putAll added).spread = cache.spread := by
  induction added generalizing cache with
  | nil => rfl
  | cons entry added ih => exact ih (cache.put entry.1 entry.2)

theorem shardOf_putAll (cache : QueryCache) (added : List (String × Optimized)) (key : String) :
    (cache.putAll added).shardOf key = cache.shardOf key := by
  induction added generalizing cache with
  | nil => rfl
  | cons entry added ih => exact (ih (cache.put entry.1 entry.2)).trans (shardOf_put ..)

theorem nodup_filter {added : List (String × Optimized)} (different : (added.map (·.1)).Nodup)
    (keep : String × Optimized → Bool) : ((added.filter keep).map (·.1)).Nodup :=
  List.Nodup.sublist (List.filter_sublist.map _) different

theorem bare_ext {cache cache' : QueryCache} (spreads : cache.spread = cache'.spread)
    (shards : ∀ i : Nat, cache.shards[i]? = cache'.shards[i]?) : cache.bare = cache'.bare := by
  have same : cache.shards = cache'.shards := Array.ext_getElem? shards
  simp only [bare, spreads, same]

/-- Writing entries of different texts twice is writing them once. -/
theorem putAll_putAll (distinct : cache.Distinct) {added : List (String × Optimized)}
    (different : (added.map (·.1)).Nodup) :
    ((cache.putAll added).putAll added).bare = (cache.putAll added).bare := by
  refine bare_ext (spread_putAll _ _) fun i => ?_
  simp only [getElem?_putAll, shardOf_putAll, Option.map_map]
  cases here : cache.shards[i]? with
  | none => rfl
  | some table =>
    exact congrArg some (Recent.insertAll_insertAll (distinct table (Array.mem_of_getElem? here))
      (nodup_filter different _))

/-- Entries of different texts are all there after they were written, if there is room. -/
theorem get?_putAll (distinct : cache.Distinct) {added : List (String × Optimized)}
    (different : (added.map (·.1)).Nodup) (anyShard : 0 < cache.shards.size)
    (room : ∀ table ∈ cache.shards, added.length ≤ table.capacity)
    (mem : (key, optimized) ∈ added) : (cache.putAll added).get? key = some optimized := by
  have inside : cache.shardOf key < cache.shards.size := Nat.mod_lt _ anyShard
  have here := Array.getElem_mem inside
  rw [get?, shardOf_putAll, getElem?_putAll, Array.getElem?_eq_getElem inside]
  refine Recent.get?_insertAll (distinct _ here) (nodup_filter different _) ?_ ?_
  · exact Nat.le_trans (List.length_filter_le _ _) (room _ here)
  · exact List.mem_filter.mpr ⟨mem, beq_self_eq_true _⟩

/-! ### Asking -/

section Asking

variable (made : Query → Optimized)

/-- What is answered about a query: the entry under its text, or what is made of it now. -/
def answerTo (cache : QueryCache) (q : Query) : Optimized :=
  (cache.get? q.canonical).getD (made q)

/-- The cache after it was asked for a query, and what was made now was stored. -/
def ask (cache : QueryCache) (q : Query) : QueryCache :=
  match cache.get? q.canonical with
  | some optimized => cache.count q.canonical (some optimized)
  | none => (cache.count q.canonical none).store q (made q)

/-- The cache after it was asked for queries, one after the other. -/
def askAll (cache : QueryCache) : List Query → QueryCache
  | [] => cache
  | q :: qs => askAll (cache.ask made q) qs

/-- What is answered about queries, one after the other. -/
def answersTo (cache : QueryCache) : List Query → List Optimized
  | [] => []
  | q :: qs => cache.answerTo made q :: answersTo (cache.ask made q) qs

/-- The entries under the texts of queries, without what is not stored. -/
def entriesFor : List Query → List Optimized → List (String × Optimized)
  | q :: qs, optimized :: rest =>
    if optimized.hoisted.cacheable then (q.canonical, optimized) :: entriesFor qs rest
    else entriesFor qs rest
  | _, _ => []

variable {made} {qs : List Query}

theorem texts_entriesFor (qs : List Query) (answers : List Optimized) :
    ((entriesFor qs answers).map (·.1)).Sublist (qs.map Query.canonical) := by
  induction qs generalizing answers with
  | nil => exact List.Sublist.slnil
  | cons q qs ih =>
    cases answers with
    | nil => exact List.nil_sublist _
    | cons optimized answers =>
      simp only [entriesFor]
      split
      · exact (ih answers).cons_cons _
      · exact (ih answers).cons _

theorem length_entriesFor_le (qs : List Query) (answers : List Optimized) :
    (entriesFor qs answers).length ≤ qs.length := by
  simpa only [List.length_map] using (texts_entriesFor qs answers).length_le

theorem mem_entriesFor {answers : List Optimized} (mem : (q, optimized) ∈ qs.zip answers)
    (cacheable : optimized.hoisted.cacheable = true) :
    (q.canonical, optimized) ∈ entriesFor qs answers := by
  induction qs generalizing answers with
  | nil => cases mem
  | cons q' qs ih =>
    cases answers with
    | nil => cases mem
    | cons optimized' answers =>
      simp only [entriesFor]
      rcases List.mem_cons.mp mem with here | there
      · cases here
        rw [if_pos cacheable]
        exact List.mem_cons_self
      · split
        · exact .tail _ (ih there)
        · exact ih there

/-- What is found after a query was asked for was made of it now, or it was found before. -/
theorem of_get?_ask (found : (cache.ask made q).get? key = some optimized) :
    key = q.canonical ∧ optimized = made q ∨ cache.get? key = some optimized := by
  unfold ask at found
  split at found
  · exact .inr (of_get?_count found)
  · exact (of_get?_store found).imp_right of_get?_count

theorem Cacheable.ask (cacheable : cache.Cacheable) : (cache.ask made q).Cacheable := by
  unfold QueryCache.ask
  split
  · exact cacheable.count
  · exact cacheable.count.store _ _

theorem Cacheable.askAll (cacheable : cache.Cacheable) (qs : List Query) :
    (cache.askAll made qs).Cacheable := by
  induction qs generalizing cache with
  | nil => exact cacheable
  | cons q qs ih => exact ih cacheable.ask

theorem Distinct.ask (distinct : cache.Distinct) : (cache.ask made q).Distinct := by
  unfold QueryCache.ask
  split
  · exact distinct.count
  · exact distinct.count.perform (.store q (made q))

/-- Asking makes no room, and takes none away. -/
theorem room_ask {n : Nat} (room : ∀ table ∈ cache.shards, n ≤ table.capacity) :
    ∀ table ∈ (cache.ask made q).shards, n ≤ table.capacity := by
  have capacities :
      (cache.ask made q).shards.map (·.capacity) = cache.shards.map (·.capacity) := by
    have looked := cache.capacities_perform (.find q)
    simp only [perform, find, lookup] at looked
    unfold QueryCache.ask
    split
    case h_1 found => rwa [found] at looked
    case h_2 missed =>
      rw [missed] at looked
      exact (capacities_perform _ (.store q (made q))).trans looked
  intro table mem
  have here := Array.mem_map_of_mem (f := (·.capacity)) mem
  rw [capacities] at here
  obtain ⟨table', mem', same⟩ := Array.mem_map.mp here
  exact same ▸ room table' mem'

/-- Asking for a query brings its answer to the front, unless it is not to be stored. -/
theorem bare_ask (cacheable : cache.Cacheable) (q : Query) :
    (cache.ask made q).bare
      = if (cache.answerTo made q).hoisted.cacheable
        then (cache.put q.canonical (cache.answerTo made q)).bare else cache.bare := by
  unfold QueryCache.ask answerTo
  cases found : cache.get? q.canonical with
  | none =>
    simp only [Option.getD_none, store]
    split <;> rfl
  | some optimized =>
    simp only [Option.getD_some, cacheable _ _ found, if_true]
    have used : cache.used (.find q) = some (q.canonical, optimized) :=
      Option.map_eq_some_iff.mpr ⟨optimized, found, rfl⟩
    have kept : Operation.find q ≠ .clear := Operation.noConfusion
    have shards := cache.shards_perform kept
    simp only [used, perform, find, lookup, found] at shards
    exact bare_ext rfl fun i => by rw [shards]; rfl

/-- Asking for queries brings their answers to the front. -/
theorem bare_askAll (cacheable : cache.Cacheable) (qs : List Query) :
    (cache.askAll made qs).bare = (cache.putAll (entriesFor qs (cache.answersTo made qs))).bare := by
  induction qs generalizing cache with
  | nil => rfl
  | cons q qs ih =>
    simp only [askAll, answersTo, entriesFor]
    rw [ih cacheable.ask, bare_putAll, bare_ask cacheable]
    split
    · rw [← bare_putAll]
      rfl
    · rw [bare_putAll]

/-- Asking for queries of different texts for the second time leaves nothing new, if it is
answered as before. -/
theorem askAll_again (cacheable : cache.Cacheable) (distinct : cache.Distinct)
    (different : (qs.map Query.canonical).Nodup)
    (same : (cache.askAll made qs).answersTo made qs = cache.answersTo made qs) :
    ((cache.askAll made qs).askAll made qs).bare = (cache.askAll made qs).bare := by
  have texts := List.Nodup.sublist (texts_entriesFor qs (cache.answersTo made qs)) different
  rw [bare_askAll (cacheable.askAll qs), same, bare_putAll, bare_askAll cacheable, ← bare_putAll,
    putAll_putAll distinct texts]

theorem length_answersTo (cache : QueryCache) (qs : List Query) :
    (cache.answersTo made qs).length = qs.length := by
  induction qs generalizing cache with
  | nil => rfl
  | cons q qs ih => simp only [answersTo, List.length_cons, ih]

/-! ### Nothing but own entries -/

/-- Whether nothing is remembered under the text of a query but what is made of it. -/
def Owns (cache : QueryCache) (made : Query → Optimized) (q : Query) : Prop :=
  ∀ optimized, cache.get? q.canonical = some optimized → optimized = made q

theorem Owns.answerTo_eq (owns : cache.Owns made q) : cache.answerTo made q = made q := by
  unfold answerTo
  cases found : cache.get? q.canonical with
  | none => rfl
  | some optimized => exact owns optimized found

theorem Owns.ask {q' : Query} (owns : cache.Owns made q)
    (apart : q.canonical = q'.canonical → q = q') : (cache.ask made q').Owns made q := by
  intro optimized found
  rcases of_get?_ask found with ⟨text, rfl⟩ | before
  · rw [apart text]
  · exact owns optimized before

/-- Queries of different texts under which nothing else is remembered are answered with what is
made of them, and nothing else is remembered afterwards. -/
theorem answersTo_of_owns (different : (qs.map Query.canonical).Nodup)
    (owns : ∀ q ∈ qs, cache.Owns made q) :
    cache.answersTo made qs = qs.map made ∧ ∀ q ∈ qs, (cache.askAll made qs).Owns made q := by
  have injective := List.inj_on_of_nodup_map different
  suffices continued : ∀ (rest : List Query) (cache : QueryCache), (∀ q ∈ rest, q ∈ qs) →
      (∀ q ∈ qs, cache.Owns made q) →
      cache.answersTo made rest = rest.map made ∧ ∀ q ∈ qs, (cache.askAll made rest).Owns made q from
    continued qs cache (fun _ mem => mem) owns
  intro rest
  induction rest with
  | nil => exact fun cache _ owns => ⟨rfl, owns⟩
  | cons q rest ih =>
    intro cache among owns
    have here := among q List.mem_cons_self
    obtain ⟨answers, owns'⟩ := ih (cache.ask made q) (fun other mem => among other (.tail _ mem))
      fun other mem => (owns other mem).ask fun text => injective mem here text
    exact ⟨by simp only [answersTo, List.map_cons, answers, (owns q here).answerTo_eq], owns'⟩

/-! ### Room for everything -/

/-- Whether a cache goes on answering a query in a given way: the answer is there, or it is not
stored but made every time. -/
structure Settled (cache : QueryCache) (made : Query → Optimized) (q : Query)
    (answer : Optimized) : Prop where
  only : ∀ optimized, cache.get? q.canonical = some optimized → optimized = answer
  kept : answer.hoisted.cacheable = true → cache.get? q.canonical = some answer
  remade : answer.hoisted.cacheable = false → answer = made q

variable {answer : Optimized}

theorem Settled.answerTo_eq (settled : cache.Settled made q answer) :
    cache.answerTo made q = answer := by
  unfold answerTo
  cases found : cache.get? q.canonical with
  | some optimized => exact settled.only optimized found
  | none =>
    cases stored : answer.hoisted.cacheable with
    | false => exact (settled.remade stored).symm
    | true => exact nomatch found.symm.trans (settled.kept stored)

/-- What is used stays, and nothing is pushed out by it. -/
theorem get?_count (found : cache.get? key = some optimized) (key' : String) :
    (cache.count key (some optimized)).get? key' = cache.get? key' := by
  obtain ⟨table, responsible, entry⟩ := Option.bind_eq_some_iff.mp found
  simp only [get?, count, shardOf, Array.size_modify, Array.getElem?_modify]
  split
  case isTrue here =>
    rw [← here, ← shardOf, responsible]
    exact Recent.get?_touch entry key'
  case isFalse => rfl

/-- Asking for what is settled leaves everything there. -/
theorem Settled.get?_ask (settled : cache.Settled made q answer) (key : String) :
    (cache.ask made q).get? key = cache.get? key := by
  have same := settled.answerTo_eq
  unfold QueryCache.ask
  unfold answerTo at same
  cases found : cache.get? q.canonical with
  | some optimized => exact get?_count found key
  | none =>
    rw [found, Option.getD_none] at same
    have notStored : ¬ (made q).hoisted.cacheable = true := fun stored =>
      nomatch found.symm.trans (settled.kept (same ▸ stored))
    simp only [store, if_neg notStored]
    rfl

theorem answersTo_of_settled {answers : List Optimized}
    (settled : List.Forall₂ (cache.Settled made) qs answers) : cache.answersTo made qs = answers := by
  induction qs generalizing cache answers with
  | nil =>
    cases settled
    rfl
  | cons q qs ih =>
    cases settled with
    | cons first rest =>
      have rest' := rest.imp fun q' answer' (settled : cache.Settled made q' answer') =>
        (⟨fun optimized found => settled.only optimized (first.get?_ask _ ▸ found),
          fun stored => (first.get?_ask _).trans (settled.kept stored), settled.remade⟩ :
          (cache.ask made q).Settled made q' answer')
      rw [answersTo, first.answerTo_eq, ih rest']

/-- Under the text of a query that was just asked for, there is its answer. -/
theorem of_get?_ask_self (found : (cache.ask made q).get? q.canonical = some optimized) :
    optimized = cache.answerTo made q := by
  unfold ask at found
  unfold answerTo
  cases entry : cache.get? q.canonical with
  | some optimized' =>
    simp only [entry] at found
    exact Option.some.inj ((of_get?_count found).symm.trans entry)
  | none =>
    simp only [entry] at found
    rcases of_get?_store found with ⟨-, same⟩ | before
    · exact same
    · exact nomatch entry.symm.trans (of_get?_count before)

theorem of_get?_askAll (others : ∀ q ∈ qs, q.canonical ≠ key)
    (found : (cache.askAll made qs).get? key = some optimized) :
    cache.get? key = some optimized := by
  induction qs generalizing cache with
  | nil => exact found
  | cons q qs ih =>
    rcases of_get?_ask (ih (fun other mem => others other (.tail _ mem)) found) with
      ⟨text, -⟩ | before
    · exact absurd text.symm (others q List.mem_cons_self)
    · exact before

/-- What is found after queries of different texts were asked for is what was answered. -/
theorem only_askAll (different : (qs.map Query.canonical).Nodup)
    (mem : (q, answer) ∈ qs.zip (cache.answersTo made qs))
    (found : (cache.askAll made qs).get? q.canonical = some optimized) : optimized = answer := by
  induction qs generalizing cache with
  | nil => cases mem
  | cons q' qs ih =>
    obtain ⟨fresh, different⟩ := List.nodup_cons.mp different
    rcases List.mem_cons.mp mem with here | there
    · cases here
      refine of_get?_ask_self (of_get?_askAll (fun other mem same => fresh ?_) found)
      exact List.mem_map.mpr ⟨other, mem, same⟩
    · exact ih different there found

/-- What is not stored was made. -/
theorem remade_of_mem_answersTo (cacheable : cache.Cacheable)
    (mem : (q, answer) ∈ qs.zip (cache.answersTo made qs))
    (notStored : answer.hoisted.cacheable = false) : answer = made q := by
  induction qs generalizing cache with
  | nil => cases mem
  | cons q' qs ih =>
    rcases List.mem_cons.mp mem with here | there
    · cases here
      unfold answerTo at notStored ⊢
      cases found : cache.get? q.canonical with
      | none => rfl
      | some optimized =>
        rw [found, Option.getD_some, cacheable _ _ found] at notStored
        cases notStored
    · exact ih cacheable.ask there

/-- If every shard has room for all of them, queries of different texts that were asked for are
answered in the same way again. -/
theorem answersTo_again (cacheable : cache.Cacheable) (distinct : cache.Distinct)
    (different : (qs.map Query.canonical).Nodup) (anyShard : 0 < cache.shards.size)
    (room : ∀ table ∈ cache.shards, qs.length ≤ table.capacity) :
    (cache.askAll made qs).answersTo made qs = cache.answersTo made qs := by
  refine answersTo_of_settled (List.forall₂_iff_zip.mpr
    ⟨(length_answersTo cache qs).symm, fun mem => ⟨fun _ => only_askAll different mem,
      fun stored => ?_, remade_of_mem_answersTo cacheable mem⟩⟩)
  have texts := List.Nodup.sublist (texts_entriesFor qs (cache.answersTo made qs)) different
  have there := get?_putAll distinct texts anyShard (fun table here =>
    Nat.le_trans (length_entriesFor_le _ _) (room table here)) (mem_entriesFor mem stored)
  have same : (cache.askAll made qs).bare.get? = _ := congrArg get? (bare_askAll cacheable qs)
  exact (congrFun same _).trans there

end Asking

end QueryCache

end ExtentQuery.Cache
