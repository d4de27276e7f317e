import ExtentQuery.Metadata.Schema
import ExtentQuery.Proofs.Caching.Sharing

/-!
# Optimized queries that are served from the cache

Whoever asks an engine for the optimized form of a query may get one that was made of another
query: of one with the same canonical text, long before, with other queries optimized and
entries forgotten in between.  What such an answer says is still what the query says.

* `Engine.Request`, `Engine.serve` — what an engine is asked for, and its answer;
* `Engine.Faithful` — a cache all of whose entries were made of legible queries with their
  text, which no request changes (`Engine.exists_serve`);
* `Engine.exists_answers` — every one of a list of requests is answered, and every optimized
  query holds of what the query holds of.

**Readings of texts.**  An entry may stand for a query with commuted operands, also within
decorated queries.  So a reading has to give leaves with the same text the same answer
(`Reading.OfTexts`).  Leaves without a query inside them have a text of their own, so for
them this asks for nothing.
-/

namespace ExtentQuery

open Effect
open Rewrite (Optimized)

/-! ### Readings of texts -/

namespace Query

/-- A legible query holds no placeholder. -/
theorem ground_of_legible {q : Query} (legible : q.legible = true) : q.ground = true := by
  rw [← allLeaves_legible] at legible
  refine Interpretation.allLeaves_mono (fun leaf readable => ?_) legible
  cases leaf with
  | slot | converter => cases readable
  | _ => rfl

end Query

namespace Reading

/-- Whether leaves with the same text say the same. -/
def OfTexts (v : Reading) : Prop :=
  ∀ a b : Query, a.arity = 0 → b.arity = 0 → a.canonical = b.canonical → v.leaf a = v.leaf b

/-- A reading of texts does not see the order of operands, at any depth. -/
theorem OfTexts.holds_of_commuted {v : Reading} (texts : v.OfTexts) {a b : Query}
    (commuted : a.Commuted b) : v.holds a = v.holds b :=
  v.fair.toCommutes.of_commuted_targets
    (fun link _ _ targetType targets => texts _ _ rfl rfl
      (Query.canonical_of_commuted (.linkedInto link targetType targets)))
    commuted

end Reading

/-! ### Requests -/

namespace Engine

/-- What an engine is asked for. -/
inductive Request where
  /-- The optimized form of a query. -/
  | optimize (q : Query)
  /-- To forget what it remembers. -/
  | clear
deriving DecidableEq, Inhabited

/-- Whether a request is about a legible query, if it is about any. -/
def Request.legible : Request → Bool
  | optimize q => q.legible
  | clear => true

/-- The answer of an engine. -/
def serve (engine : Engine) : Request → Effect (Option Optimized)
  | .optimize q => do return some (← engine.optimize q)
  | .clear => do
    modify fun s => { s with cache := s.cache.clear }
    return none

/-- Whether an answer says what was asked for: the optimized query holds of what the query
holds of, in every reading of texts. -/
def Request.Truthful : Request → Option Optimized → Prop
  | optimize q, answer =>
    ∃ optimized, answer = some optimized ∧
      ∀ v : Reading, v.OfTexts → v.holds optimized.query = v.holds q
  | clear, answer => answer = none

/-- Whether every entry of a cache was made of a legible query with its text. -/
def Faithful (engine : Engine) (cache : Cache.QueryCache) : Prop :=
  cache.Remembers fun q optimized => q.legible = true ∧
    ∃ notices, Rewrite.optimize engine.settings.maxRewrites q [] = .ok optimized notices

variable {engine : Engine} {q : Query} {s : State} {optimized : Optimized}

/-- An entry that is found under the text of a query says what the query says. -/
theorem Faithful.holds (faithful : engine.Faithful s.cache) (legible : q.legible = true)
    (found : s.cache.get? q.canonical = some optimized) {v : Reading} (texts : v.OfTexts) :
    v.holds optimized.query = v.holds q := by
  obtain ⟨q', text, legible', notices, made⟩ := faithful _ optimized found
  have commuted : q'.Commuted q := Query.commuted_of_canonical legible' legible text
  obtain ⟨_, _, remade, same⟩ :=
    v.holds_optimize engine.settings.maxRewrites (Query.ground_of_legible legible') []
  cases made.symm.trans remade
  exact same.trans (texts.holds_of_commuted commuted)

/-! ### What optimization answers and leaves behind -/

/-- Any other query is optimized now, and the result is stored. -/
theorem optimize_of_miss {notices : List Notice} (missed : s.cache.get? q.canonical = none)
    (made : Rewrite.optimize engine.settings.maxRewrites q [] = .ok optimized notices) :
    engine.optimize q s = .ok optimized { s with
      cache := (s.cache.count q.canonical none).store q optimized
      notices := s.notices ++ notices
      work := s.work.add .optimization } := by
  have ran : (Rewrite.optimize engine.settings.maxRewrites q).run [] = .ok optimized notices := made
  simp only [Engine.optimize, Engine.optimizeNow, Cache.QueryCache.find, Cache.QueryCache.lookup,
    bind, EStateM.bind, modifyGet, MonadStateOf.modifyGet, EStateM.modifyGet, missed, ran,
    forM_report]
  rfl

/-- A request about a legible query is answered truthfully, whether the answer was remembered
or is made now, and it leaves a faithful cache behind. -/
theorem exists_serve (faithful : engine.Faithful s.cache) (request : Request)
    (legible : request.legible = true) :
    ∃ answer s', engine.serve request s = .ok answer s' ∧ request.Truthful answer ∧
      engine.Faithful s'.cache := by
  cases request with
  | clear => exact ⟨none, _, rfl, rfl, Cache.QueryCache.Remembers.clear⟩
  | optimize q =>
    suffices answered : ∃ optimized s', engine.optimize q s = .ok optimized s' ∧
        (∀ v : Reading, v.OfTexts → v.holds optimized.query = v.holds q) ∧
        engine.Faithful s'.cache by
      obtain ⟨optimized, s', ran, truthful, faithful'⟩ := answered
      refine ⟨some optimized, s', ?_, ⟨optimized, rfl, truthful⟩, faithful'⟩
      simp only [serve, bind, EStateM.bind, ran]
      rfl
    cases entry : s.cache.get? q.canonical with
    | some optimized =>
      exact ⟨optimized, _, optimize_of_hit entry, fun v texts => faithful.holds legible entry texts,
        faithful.count⟩
    | none =>
      obtain ⟨optimized, notices, made⟩ :=
        Rewrite.optimize_total engine.settings.maxRewrites (Query.ground_of_legible legible) []
      refine ⟨optimized, _, optimize_of_miss entry made, fun v _ => ?_,
        faithful.count.store ⟨legible, notices, made⟩⟩
      obtain ⟨_, _, remade, same⟩ :=
        v.holds_optimize engine.settings.maxRewrites (Query.ground_of_legible legible) []
      cases made.symm.trans remade
      exact same

/-- A new cache is faithful, whatever its capacity and however many shards it has. -/
theorem faithful_of_create? {capacity shards : Nat} {concurrent : Bool}
    {cache : Cache.QueryCache}
    (created : Cache.QueryCache.create? capacity concurrent shards = .ok cache) :
    engine.Faithful cache := by
  simp only [Cache.QueryCache.create?] at created
  split at created
  · cases created
  split at created
  · cases created
  cases created
  exact Cache.QueryCache.remembers_of_empty (Cache.QueryCache.get?_create _ _ _)

/-- A list of requests is answered one after the other, and every answer is truthful. -/
theorem exists_mapM_serve (requests : List Request) (faithful : engine.Faithful s.cache)
    (legible : ∀ request ∈ requests, request.legible = true) :
    ∃ answers s', requests.mapM engine.serve s = .ok answers s' ∧
      List.Forall₂ Request.Truthful requests answers ∧ engine.Faithful s'.cache := by
  induction requests generalizing s with
  | nil => exact ⟨[], s, rfl, .nil, faithful⟩
  | cons request requests ih =>
    obtain ⟨answer, s₁, served, truthful, faithful₁⟩ :=
      exists_serve faithful request (legible _ List.mem_cons_self)
    obtain ⟨answers, s₂, ran, others, faithful₂⟩ :=
      ih faithful₁ fun request mem => legible request (.tail _ mem)
    refine ⟨answer :: answers, s₂, ?_, .cons truthful others, faithful₂⟩
    simp only [List.mapM_cons, bind, EStateM.bind, served, ran]
    rfl

/-- **The cache never changes what an answer says.**  For every capacity, mode and number of
shards that there is room for, and whatever queries without custom leaves and placeholders are
optimized and whenever the cache is cleared: every request is answered, and every optimized
query, be it remembered or not, holds in every reading of texts exactly if the query does. -/
theorem exists_answers (engine : Engine) {capacity shards : Nat} {concurrent : Bool}
    (created : Cache.QueryCache.create? capacity concurrent shards = .ok s.cache)
    (requests : List Request) (legible : ∀ request ∈ requests, request.legible = true) :
    ∃ answers s', requests.mapM engine.serve s = .ok answers s' ∧
      List.Forall₂ Request.Truthful requests answers := by
  obtain ⟨answers, s', ran, truthful, -⟩ :=
    exists_mapM_serve requests (faithful_of_create? created) legible
  exact ⟨answers, s', ran, truthful⟩

/-! ### Two orders of operands, with a cache of one entry -/

/-- An engine with the default settings. -/
def usual : Engine := ⟨.memory, Schema.empty.metadata, .default⟩

/-- A state in which one query can be remembered. -/
def forgetful : State := .initial .empty (.create 1 true 16)

/-- Both orders of operands, and the second one again after the cache was cleared. -/
def bothOrders : List Request :=
  [.optimize .crossed, .optimize .crossedBack, .clear, .optimize .crossedBack]

/-- What is made of the first order. -/
def madeOfCrossed : Optimized :=
  ⟨.union (.hasProperty "y") (.inter (.hasProperty "x") (.hasProperty "x")), .empty⟩

/-- What is made of the second order. -/
def madeOfCrossedBack : Optimized :=
  ⟨.union (.hasProperty "x") (.inter (.hasProperty "y") (.hasProperty "y")), .empty⟩

set_option maxRecDepth 100000 in
/-- The second order is answered with what was made of the first one and, after the cache was
cleared, with what is made of itself.  Both say what the query says. -/
theorem exists_answers_crossed :
    let answers := [some madeOfCrossed, some madeOfCrossed, none, some madeOfCrossedBack]
    Cache.QueryCache.create? 1 true 16 = .ok forgetful.cache ∧
      (∀ request ∈ bothOrders, request.legible = true) ∧
      (∃ s, bothOrders.mapM usual.serve forgetful = .ok answers s) ∧
      List.Forall₂ Request.Truthful bothOrders answers := by
  have created : Cache.QueryCache.create? 1 true 16 = .ok forgetful.cache := rfl
  have legible : ∀ request ∈ bothOrders, request.legible = true := by decide
  have served : EStateM.run' (bothOrders.mapM usual.serve) forgetful
      = some [some madeOfCrossed, some madeOfCrossed, none, some madeOfCrossedBack] := by decide +kernel
  obtain ⟨s, ran⟩ := Effect.exists_of_run' served
  obtain ⟨answers, s', ran', truthful⟩ := usual.exists_answers created bothOrders legible
  cases ran.symm.trans ran'
  exact ⟨created, legible, ⟨s, ran⟩, truthful⟩

end Engine

end ExtentQuery
