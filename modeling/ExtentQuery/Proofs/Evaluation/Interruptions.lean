import ExtentQuery.Proofs.Evaluation.FirstReads

/-!
# Answering again after a failure

A selection is evaluated while the store is told to fail, and again when it is not any more.  The
first attempt ends in the failure, whatever the query is, because something is read for every
query (`Session.exists_readsAfter`).  What it leaves behind is the decision about the query, and a
cache that was asked for the queries that came before the read.  The second attempt finds both.

* `Session.LeadsTo`, `Session.Descends` — the queries that answering an optimized query can lead
  to, and a path through them;
* `Session.Accurate` — a cache that holds under the text of every legible query what is made of
  it, up to the order of operands;
* `Session.exists_failure_and_retry` — the failure reaches the caller, and the second attempt has
  the outcome that it would have had without the first one.

**When the second attempt differs.**  A query may be answered with what was remembered of another
order of its operands.  If there is no room for it and for what comes after it, the first attempt
pushes it out, and the second one goes by what is made of the query itself.
-/

namespace ExtentQuery

open Effect
open Rewrite (Optimized)
open Cache (QueryCache)

/-- Whether a query takes the text of no legible query, unless it is legible. -/
def Query.Genuine (q : Query) : Prop :=
  ∀ p : Query, p.legible = true → p.canonical = q.canonical → q.legible = true

namespace Session

variable {session : Session} {cache : QueryCache} {q d : Query} {u v : Optimized}
  {asked : List Query} {answers : List Optimized}

/-! ### Queries on the way to a read -/

/-- What is made of a query reads, and it asks for nothing as deep as the query. -/
theorem nesting_of_optimizes (optimizes : session.Optimizes q u) (reads : q.reads = true) :
    u.steps.1.reads = true ∧ ∀ d ∈ u.follows, d.reads = true ∧ d.asks < q.asks := by
  obtain ⟨q', notices, commuted, found⟩ := optimizes
  obtain ⟨sameReads, sameAsks⟩ := Query.nesting_of_commuted commuted
  obtain ⟨body, targets, sorts⟩ := Rewrite.nesting_optimize found (sameReads.trans reads)
  rw [sameAsks] at targets sorts
  refine ⟨body, fun d mem => ?_⟩
  rcases List.mem_append.mp mem with decorated | extent
  · exact targets d decorated
  · split at extent
    · cases extent
    case isFalse sorted =>
      rw [List.mem_singleton.mp extent]
      exact ⟨rfl, sorts sorted⟩

/-- The queries that answering an optimized query can lead to, if every one is answered with what
is made of it. -/
inductive LeadsTo (session : Session) : Optimized → Query → Prop where
  | next {u : Optimized} {d : Query} (follows : d ∈ u.follows) : LeadsTo session u d
  | further {u : Optimized} {d e : Query} (follows : d ∈ u.follows)
      (below : LeadsTo session (session.made d) e) : LeadsTo session u e

/-- Queries each of which follows from the answer to the one before it, with their answers. -/
inductive Descends (session : Session) : Optimized → List Query → List Optimized → Prop where
  | stop {u : Optimized} : Descends session u [] []
  | next {u v : Optimized} {d : Query} {asked : List Query} {answers : List Optimized}
      (follows : d ∈ u.follows) (optimizes : session.Optimizes d v)
      (rest : Descends session v asked answers) :
      Descends session u (d :: asked) (v :: answers)

/-- Every one of the queries on a path reads, and it is less deep than the ones before it. -/
theorem Descends.pairwise (descends : session.Descends u asked answers)
    (optimizes : session.Optimizes q u) (reads : q.reads = true) :
    (∀ d ∈ asked, d.reads = true ∧ d.asks < q.asks) ∧
      asked.Pairwise fun before after => after.asks < before.asks := by
  induction descends generalizing q with
  | stop => exact ⟨nofun, .nil⟩
  | next follows optimizes' _ ih =>
    obtain ⟨reads', less⟩ := (nesting_of_optimizes optimizes reads).2 _ follows
    obtain ⟨below, decreasing⟩ := ih optimizes' reads'
    refine ⟨List.forall_mem_cons.mpr ⟨⟨reads', less⟩, fun e mem => ?_⟩,
      .cons (fun e mem => (below e mem).2) decreasing⟩
    exact ⟨(below e mem).1, Nat.lt_trans (below e mem).2 less⟩

/-- A path is no longer than queries are deep. -/
theorem Descends.length_le (descends : session.Descends u asked answers)
    (optimizes : session.Optimizes q u) (reads : q.reads = true) : asked.length ≤ q.asks := by
  induction descends generalizing q with
  | stop => exact Nat.zero_le _
  | next follows optimizes' _ ih =>
    obtain ⟨reads', less⟩ := (nesting_of_optimizes optimizes reads).2 _ follows
    exact Nat.lt_of_le_of_lt (ih optimizes' reads') less

/-- Queries that are not as deep as each other have different texts. -/
theorem canonical_ne_of_asks (reads : q.reads = true) (reads' : d.reads = true)
    (less : d.asks < q.asks) : q.canonical ≠ d.canonical := fun same =>
  Nat.ne_of_gt less (Query.nesting_of_commuted (Query.commuted_of_canonical
    (Query.legible_of_reads reads) (Query.legible_of_reads reads') same)).2

/-- The queries on a path have different texts. -/
theorem Descends.nodup (descends : session.Descends u asked answers)
    (optimizes : session.Optimizes q u) (reads : q.reads = true) :
    (asked.map Query.canonical).Nodup := by
  obtain ⟨below, decreasing⟩ := descends.pairwise optimizes reads
  refine List.pairwise_map.mpr (decreasing.imp_of_mem fun {before after} mem mem' less => ?_)
  exact canonical_ne_of_asks (below before mem).1 (below after mem').1 less

/-- What answering an optimized query leads to reads, and it is less deep than the query that
this was made of. -/
theorem LeadsTo.asks_lt (leads : session.LeadsTo u d) (optimizes : session.Optimizes q u)
    (reads : q.reads = true) : d.reads = true ∧ d.asks < q.asks := by
  induction leads generalizing q with
  | next follows => exact (nesting_of_optimizes optimizes reads).2 _ follows
  | @further u d e follows below ih =>
    obtain ⟨reads', less⟩ := (nesting_of_optimizes optimizes reads).2 _ follows
    obtain ⟨notices, found⟩ := session.exists_made (Query.legible_of_reads reads')
    obtain ⟨reads'', less'⟩ := ih ⟨d, notices, .refl d, found⟩ reads'
    exact ⟨reads'', Nat.lt_trans less' less⟩

/-- If nothing is remembered but what is made of the queries that answering leads to, every path
leads through these. -/
theorem Descends.leadsTo (descends : session.Descends u asked answers)
    (optimizes : session.Optimizes q u) (reads : q.reads = true)
    (answered : cache.answersTo session.made asked = answers)
    (owns : ∀ d, session.LeadsTo u d → cache.Owns session.made d) :
    ∀ d ∈ asked, session.LeadsTo u d := by
  induction descends generalizing q cache with
  | stop => exact nofun
  | @next u v d asked answers follows optimizes' rest ih =>
    obtain ⟨answer, others⟩ := List.cons.inj answered
    obtain ⟨reads', -⟩ := (nesting_of_optimizes optimizes reads).2 _ follows
    have own : v = session.made d := answer.symm.trans (owns d (.next follows)).answerTo_eq
    subst own
    have further := ih optimizes' reads' others fun e leads => by
      refine (owns e (.further follows leads)).ask fun same => ?_
      obtain ⟨reads'', less⟩ := leads.asks_lt optimizes' reads'
      exact absurd same.symm (canonical_ne_of_asks reads' reads'' less)
    exact List.forall_mem_cons.mpr
      ⟨.next follows, fun e mem => .further follows (further e mem)⟩

/-! ### Accurate caches -/

/-- Whether a cache holds under the text of every legible query what is made of the query, up to
the order of operands. -/
def Accurate (session : Session) (cache : QueryCache) : Prop :=
  ∀ q : Query, q.legible = true → ∀ optimized, cache.get? q.canonical = some optimized →
    session.Optimizes q optimized

/-- A cache is accurate if it started empty and remembers no query that takes the text of a
legible one. -/
theorem accurate_of_reachesBy {s : State} (fresh : session.Fresh)
    (history : session.ReachesBy Query.Genuine s) : session.Accurate s.cache := by
  intro q legible optimized found
  obtain ⟨q', text, genuine, notices, made⟩ :=
    remembers_of_reachesBy fresh history _ optimized found
  have legible' := genuine q legible text.symm
  exact ⟨q', notices, Query.commuted_of_canonical legible' legible text, made⟩

theorem Accurate.answerTo (accurate : session.Accurate cache) (legible : q.legible = true) :
    session.Optimizes q (cache.answerTo session.made q) := by
  unfold QueryCache.answerTo
  cases found : cache.get? q.canonical with
  | some optimized => exact accurate q legible optimized found
  | none =>
    obtain ⟨notices, made⟩ := session.exists_made legible
    exact ⟨q, notices, .refl q, made⟩

theorem Accurate.ask (accurate : session.Accurate cache) (legible : q.legible = true) :
    session.Accurate (cache.ask session.made q) := by
  intro q' legible' optimized found
  rcases QueryCache.of_get?_ask found with ⟨text, rfl⟩ | before
  · obtain ⟨notices, made⟩ := session.exists_made legible
    exact ⟨q, notices, Query.commuted_of_canonical legible legible' text.symm, made⟩
  · exact accurate q' legible' optimized before

/-! ### Answering reads -/

/-- **Every query reads.**  With enough levels, an optimized query is answered by asking for
queries along a path and then reading the store, with every cache that is accurate. -/
theorem exists_readsAfter (levels : Nat) :
    ∀ {cache : QueryCache} {q : Query} {u : Optimized}, session.Accurate cache →
      session.Optimizes q u → q.reads = true → q.asks ≤ levels → ∀ type : String,
      session.Reads (fun asked answers =>
          session.Descends u asked answers ∧ cache.answersTo session.made asked = answers)
        (session.engine.answerOptimized (session.engine.answerWithin levels) type u) := by
  induction levels with
  | zero =>
    intro cache q u _ optimizes reads shallow type
    obtain ⟨body, follows⟩ := nesting_of_optimizes optimizes reads
    refine reads_answerOptimized ⟨.stop, rfl⟩ (steady_answerWithin 0) body (fun d mem => ?_) type
    exact absurd (Nat.lt_of_lt_of_le (follows d mem).2 shallow) (Nat.not_lt_zero _)
  | succ levels ih =>
    intro cache q u accurate optimizes reads shallow type
    obtain ⟨body, follows⟩ := nesting_of_optimizes optimizes reads
    refine reads_answerOptimized ⟨.stop, rfl⟩ (steady_answerWithin _) body (fun d mem type' => ?_)
      type
    obtain ⟨reads', less⟩ := follows d mem
    have legible := Query.legible_of_reads reads'
    obtain ⟨asked, answers, ⟨descends, answered⟩, first⟩ := ih (accurate.ask legible)
      (accurate.answerTo legible) reads' (Nat.le_of_lt_succ (Nat.lt_of_lt_of_le less shallow)) type'
    refine ⟨d :: asked, _ :: answers, ⟨.next mem (accurate.answerTo legible) descends, ?_⟩,
      .asking legible (steady_answerOptimized levels type') first⟩
    exact congrArg (_ :: ·) answered

/-! ### Selections -/

variable (session) in
/-- The optimized query of a selection is decided once, and kept. -/
theorem exists_optimizeOnce {s : State} {stamp : Nat} (legible : q.legible = true)
    (undecided : s.memo.lookup stamp = none) :
    ∃ s', session.engine.optimizeOnce stamp q s = .ok (s.cache.answerTo session.made q) s' ∧
      s'.bare = ({ s with
        cache := s.cache.ask session.made q
        memo := (stamp, s.cache.answerTo session.made q) :: s.memo } : State).bare := by
  obtain ⟨s₁, ran, left⟩ := session.exists_optimize legible s
  refine ⟨{ s₁ with memo := (stamp, s.cache.answerTo session.made q) :: s₁.memo }, ?_, ?_⟩
  · simp only [Engine.optimizeOnce, bind, EStateM.bind, get, getThe, MonadStateOf.get, EStateM.get,
      undecided, ran]
    rfl
  · exact congrArg (fun t : State =>
      { t with memo := (stamp, s.cache.answerTo session.made q) :: t.memo }) left

theorem optimizeOnce_of_decided {s : State} {stamp : Nat}
    (decided : s.memo.lookup stamp = some u) :
    session.engine.optimizeOnce stamp q s = .ok u s := by
  simp only [Engine.optimizeOnce, bind, EStateM.bind, get, getThe, MonadStateOf.get, EStateM.get,
    decided]
  rfl

/-- Asking once more along a path is answered as before, if nothing else is remembered under the
texts of the queries that answering leads to, or if every shard has room for a path. -/
theorem answersTo_again_of_descends (cacheable : cache.Cacheable) (distinct : cache.Distinct)
    (descends : session.Descends u asked (cache.answersTo session.made asked))
    (optimizes : session.Optimizes q u) (reads : q.reads = true)
    (recurs : (∀ d, session.LeadsTo u d → cache.Owns session.made d) ∨
      ∀ table ∈ cache.shards, q.asks ≤ table.capacity) :
    (cache.askAll session.made asked).answersTo session.made asked
      = cache.answersTo session.made asked := by
  have different := descends.nodup optimizes reads
  have ofOwns : (∀ d, session.LeadsTo u d → cache.Owns session.made d) →
      (cache.askAll session.made asked).answersTo session.made asked
        = cache.answersTo session.made asked := by
    intro owns
    have leads := descends.leadsTo optimizes reads rfl owns
    obtain ⟨first, owns'⟩ :=
      QueryCache.answersTo_of_owns different fun d mem => owns d (leads d mem)
    rw [first, (QueryCache.answersTo_of_owns different owns').1]
  rcases recurs with owns | room
  · exact ofOwns owns
  · rcases Nat.eq_zero_or_pos cache.shards.size with noShard | anyShard
    · refine ofOwns fun d _ optimized found => ?_
      rw [QueryCache.get?, Array.getElem?_eq_none (by omega)] at found
      cases found
    · exact QueryCache.answersTo_again cacheable distinct different anyShard fun table mem =>
        Nat.le_trans (descends.length_le optimizes reads) (room table mem)

/-- Whether asking again for what answering a query leads to is answered as before: nothing else
is remembered under the texts of these queries but what is made of them, or every shard has room
for as many queries as can be waiting for one another. -/
def Recurs (session : Session) (cache : QueryCache) (q : Query) : Prop :=
  (∀ d, session.LeadsTo (cache.answerTo session.made q) d → cache.Owns session.made d) ∨
    ∀ table ∈ cache.shards, q.asks ≤ table.capacity

theorem Recurs.ask (recurs : session.Recurs cache q) (accurate : session.Accurate cache)
    (reads : q.reads = true) :
    (∀ d, session.LeadsTo (cache.answerTo session.made q) d →
        (cache.ask session.made q).Owns session.made d) ∨
      ∀ table ∈ (cache.ask session.made q).shards, q.asks ≤ table.capacity := by
  refine recurs.imp (fun owns d leads => (owns d leads).ask fun same => ?_) QueryCache.room_ask
  obtain ⟨reads', less⟩ :=
    leads.asks_lt (accurate.answerTo (Query.legible_of_reads reads)) reads
  exact absurd same.symm (canonical_ne_of_asks reads reads' less)

theorem Accurate.askAll (accurate : session.Accurate cache)
    (legible : ∀ q ∈ asked, q.legible = true) :
    session.Accurate (cache.askAll session.made asked) := by
  induction asked generalizing cache with
  | nil => exact accurate
  | cons q asked ih =>
    exact ih (accurate.ask (legible q List.mem_cons_self)) fun d mem => legible d (.tail _ mem)

/-! ### Attempts -/

/-- The state after a computation was tried while the store was told to fail. -/
def attempt {α : Type} (x : Effect α) (s : State) (message : String) : State :=
  final x (s.told (some message))

/-- The state after a computation was tried several times, each time with a failure of its own. -/
def attempts {α : Type} (x : Effect α) (s : State) (messages : List String) : State :=
  messages.foldl (attempt x) s

theorem outcome_snd {α : Type} (x : Effect α) (s : State) : (outcome x s).2 = (final x s).bare := by
  unfold outcome final
  cases x s <;> rfl

/-- The entities of a selection. -/
def listed (session : Session) (selection : Selection) : Effect (List EntityId) := do
  (← selection.evaluate session.engine).collect

/-- The entities of an optimized query. -/
def listedOptimized (session : Session) (levels : Nat) (type : String) (u : Optimized) :
    Effect (List EntityId) := do
  (← session.engine.answerOptimized (session.engine.answerWithin levels) type u).collect

section Attempts

variable {s t : State} {stamp levels : Nat} {type message : String}

theorem steady_listedOptimized (levels : Nat) (type : String) (u : Optimized) :
    Steady (session.listedOptimized levels type u) :=
  composes_steady.of_bind (steady_answerOptimized levels type u) composes_steady.of_collect

/-- Listing a selection whose query is decided. -/
theorem outcome_listed_of_decided (decided : s.memo.lookup stamp = some u) :
    outcome (session.listed (.deferred stamp type q)) s
      = outcome (session.listedOptimized q.levels type u) s := by
  unfold listed listedOptimized Selection.evaluate
  rw [bind_assoc, outcome_bind_of_ok (optimizeOnce_of_decided decided)]

/-- The state in which the query of a selection was just decided. -/
def decision (session : Session) (s : State) (stamp : Nat) (q : Query) : State :=
  { s with
    cache := s.cache.ask session.made q
    memo := (stamp, s.cache.answerTo session.made q) :: s.memo }

/-- Listing a selection whose query is not decided yet. -/
theorem outcome_listed_of_undecided (legible : q.legible = true)
    (undecided : s.memo.lookup stamp = none) :
    outcome (session.listed (.deferred stamp type q)) s
      = outcome (session.listedOptimized q.levels type (s.cache.answerTo session.made q))
          (session.decision s stamp q) := by
  obtain ⟨s₁, ran, left⟩ := session.exists_optimizeOnce legible undecided
  unfold listed Selection.evaluate
  rw [bind_assoc, outcome_bind_of_ok ran]
  exact steady_listedOptimized q.levels type _ _ _ left

/-- Listing what is made of a query asks for queries along a path and reads. -/
theorem exists_readsAfter_listed (accurate : session.Accurate cache)
    (optimizes : session.Optimizes q u) (reads : q.reads = true) (type : String) :
    ∃ asked, session.Descends u asked (cache.answersTo session.made asked) ∧
      session.ReadsAfter (session.listedOptimized q.levels type u) asked
        (cache.answersTo session.made asked) := by
  have enough : q.asks ≤ q.levels :=
    Nat.le_trans (Nat.le_of_lt q.asks_lt_length) (Nat.le_succ _)
  obtain ⟨asked, _, ⟨descends, rfl⟩, first⟩ :=
    exists_readsAfter q.levels accurate optimizes reads enough type
  exact ⟨asked, descends, first.andThen composes_steady.of_collect⟩

/-- Whether a selection is to be answered by what says what its query says, decided or not yet. -/
structure Expects (session : Session) (s : State) (stamp : Nat) (q : Query) : Prop where
  accurate : session.Accurate s.cache
  decided : ∀ u, s.memo.lookup stamp = some u → session.Optimizes q u

theorem Expects.of_bare (same : s.bare = t.bare) (expects : session.Expects t stamp q) :
    session.Expects s stamp q where
  accurate q legible optimized found := by
    have caches : s.bare.cache = t.bare.cache := congrArg State.cache same
    have found' : t.bare.cache.get? q.canonical = some optimized := caches ▸ found
    exact expects.accurate q legible optimized found'
  decided u found := by
    have memos : s.bare.memo = t.bare.memo := congrArg State.memo same
    have found' : t.bare.memo.lookup stamp = some u := memos ▸ found
    exact expects.decided u found'

/-- Listing a selection is listing what is made of its query, in the state in which this is
decided. -/
theorem Expects.exists_listed (expects : session.Expects s stamp q) (legible : q.legible = true)
    (type : String) :
    ∃ u s', session.Optimizes q u ∧ session.Expects s' stamp q ∧ s'.store = s.store ∧
      s'.memo.lookup stamp = some u ∧
      outcome (session.listed (.deferred stamp type q)) s
        = outcome (session.listedOptimized q.levels type u) s' := by
  cases undecided : s.memo.lookup stamp with
  | some u =>
    exact ⟨u, s, expects.decided u undecided, expects, rfl, undecided,
      outcome_listed_of_decided undecided⟩
  | none =>
    have optimizes := expects.accurate.answerTo legible
    have decided : (session.decision s stamp q).memo.lookup stamp
        = some (s.cache.answerTo session.made q) := List.lookup_cons_self
    refine ⟨_, session.decision s stamp q, optimizes, ⟨expects.accurate.ask legible, ?_⟩, rfl,
      decided, outcome_listed_of_undecided legible undecided⟩
    rintro u found
    cases decided.symm.trans found
    exact optimizes

/-- An attempt while the store is told to fail ends in the failure, and the selection keeps
what it expects. -/
theorem Expects.exists_failed (expects : session.Expects s stamp q) (reads : q.reads = true)
    (told : s.store.failure = some message) (type : String) :
    ∃ failed, session.listed (.deferred stamp type q) s = .error (.backend message) failed ∧
      session.Expects failed stamp q := by
  obtain ⟨u, s', optimizes, expects', store, decided, same⟩ :=
    expects.exists_listed (Query.legible_of_reads reads) type
  obtain ⟨asked, descends, readsAfter⟩ :=
    exists_readsAfter_listed expects'.accurate optimizes reads type
  obtain ⟨failed, ran, left⟩ :=
    exists_of_outcome_error (same.trans (readsAfter.fails rfl (store ▸ told)))
  have legible : ∀ d ∈ asked, d.legible = true := fun d mem =>
    Query.legible_of_reads ((descends.pairwise optimizes reads).1 d mem).1
  exact ⟨failed, ran, .of_bare (t := { s' with cache := s'.cache.askAll session.made asked }) left
    ⟨expects'.accurate.askAll legible, expects'.decided⟩⟩

theorem Expects.attempts (expects : session.Expects s stamp q) (reads : q.reads = true)
    (type : String) (messages : List String) :
    session.Expects (attempts (session.listed (.deferred stamp type q)) s messages) stamp q := by
  induction messages generalizing s with
  | nil => exact expects
  | cons message messages ih =>
    obtain ⟨failed, ran, expects'⟩ := Expects.exists_failed (s := s.told (some message))
      ⟨expects.accurate, expects.decided⟩ reads rfl type
    have left : attempt (session.listed (.deferred stamp type q)) s message = failed := by
      rw [attempt, final, ran]
    rw [attempts, List.foldl_cons, left]
    exact ih expects'

/-- If the first attempt leads to a state that every other attempt leaves as it is, attempts lead
to no other state. -/
theorem bare_attempts {α : Type} {x : Effect α} {left : State}
    (first : ∀ message, (attempt x s message).bare = (left.told (some message)).bare)
    (again : ∀ t failure message, t.bare = (left.told failure).bare →
      (attempt x t message).bare = (left.told (some message)).bare) (messages : List String) :
    attempts x s messages = s ∨
      ∃ failure, (attempts x s messages).bare = (left.told failure).bare := by
  induction messages using List.reverseRecOn with
  | nil => exact .inl rfl
  | append_singleton messages message ih =>
    refine .inr ⟨some message, ?_⟩
    have last : attempts x s (messages ++ [message]) = attempt x (attempts x s messages) message :=
      List.foldl_concat ..
    rw [last]
    rcases ih with same | ⟨failure, same⟩
    · rw [same, first]
    · exact again _ failure message same

/-- What a failing attempt leaves of a state: the decision, and a cache that was asked for the
queries that came before the read. -/
def remains (session : Session) (s : State) (stamp : Nat) (q : Query) (asked : List Query) :
    State :=
  { session.decision s stamp q with
    cache := (s.cache.ask session.made q).askAll session.made asked }

theorem outcome_listed_of_remains {failure : Option String}
    (same : t.bare = ((session.remains s stamp q asked).told failure).bare) (failure' : Option String) :
    outcome (session.listed (.deferred stamp type q)) (t.told failure')
      = outcome (session.listedOptimized q.levels type (s.cache.answerTo session.made q))
          ((session.remains s stamp q asked).told failure') := by
  have memos : t.bare.memo = ((session.remains s stamp q asked).told failure).bare.memo :=
    congrArg State.memo same
  have decided : (t.told failure').memo.lookup stamp = some (s.cache.answerTo session.made q) :=
    (congrArg (List.lookup stamp) memos).trans List.lookup_cons_self
  rw [outcome_listed_of_decided decided]
  exact steady_listedOptimized _ _ _ _ _ (congrArg (State.told · failure') same)

/-- After failing attempts at an undecided selection, listing it has the outcome that it would
have had without them. -/
theorem outcome_listed_after_attempts (accurate : session.Accurate s.cache)
    (cacheable : s.cache.Cacheable) (distinct : s.cache.Distinct)
    (undecided : s.memo.lookup stamp = none) (reads : q.reads = true)
    (recurs : session.Recurs s.cache q) (type : String) (messages : List String) :
    outcome (session.listed (.deferred stamp type q))
        ((attempts (session.listed (.deferred stamp type q)) s messages).told none)
      = outcome (session.listed (.deferred stamp type q)) (s.told none) := by
  have legible := Query.legible_of_reads reads
  have optimizes := accurate.answerTo legible
  obtain ⟨asked, descends, readsAfter⟩ :=
    exists_readsAfter_listed (accurate.ask legible) optimizes reads type
  have again := answersTo_again_of_descends cacheable.ask distinct.ask descends optimizes reads
    (recurs.ask accurate reads)
  have twice := QueryCache.askAll_again cacheable.ask distinct.ask
    (descends.nodup optimizes reads) again
  have first : ∀ failure, outcome (session.listed (.deferred stamp type q)) (s.told failure)
      = outcome (session.listedOptimized q.levels type (s.cache.answerTo session.made q))
          ((session.decision s stamp q).told failure) := fun failure =>
    outcome_listed_of_undecided (s := s.told failure) legible undecided
  have ends : ∀ message, (attempt (session.listed (.deferred stamp type q)) s message).bare
      = ((session.remains s stamp q asked).told (some message)).bare := by
    intro message
    rw [attempt, ← outcome_snd, first, readsAfter.fails rfl rfl]
    rfl
  have endsAgain : ∀ (t : State) failure message,
      t.bare = ((session.remains s stamp q asked).told failure).bare →
      (attempt (session.listed (.deferred stamp type q)) t message).bare
        = ((session.remains s stamp q asked).told (some message)).bare := by
    intro t failure message same
    rw [attempt, ← outcome_snd, outcome_listed_of_remains same, readsAfter.fails again rfl]
    exact State.bare_ext rfl rfl rfl twice
  rcases bare_attempts ends endsAgain messages with same | ⟨failure, same⟩
  · rw [same]
  · rw [outcome_listed_of_remains same, first]
    exact readsAfter.resumes rfl rfl rfl rfl again twice

end Attempts

/-! ### Sessions -/

/-- No text occurs twice in a cache of a session. -/
theorem ReachesBy.distinct {allowed : Query → Prop} {s : State}
    (distinct : session.start.cache.Distinct) (reached : session.ReachesBy allowed s) :
    s.cache.Distinct := by
  induction reached with
  | refl => exact distinct
  | tail _ step ih =>
    cases step with
    | lookedUp => exact ih.count
    | @remembered q optimized => exact ih.perform (.store q optimized)
    | forgot => exact ih.perform .clear
    | _ => exact ih

/-- Asking for a query takes steps of the session. -/
theorem ReachesBy.ask {allowed : Query → Prop} {s : State} (reached : session.ReachesBy allowed s)
    (isAllowed : allowed q) (legible : q.legible = true) :
    session.ReachesBy allowed { s with cache := s.cache.ask session.made q } := by
  have lookedUp := reached.tail (.lookedUp s q.canonical)
  unfold QueryCache.ask
  cases found : s.cache.get? q.canonical with
  | some optimized => rwa [found] at lookedUp
  | none =>
    rw [found] at lookedUp
    obtain ⟨notices, made⟩ := session.exists_made legible
    exact lookedUp.tail (.remembered _ isAllowed made)

/-- **A failure reaches the caller, and leaves nothing behind.**  Whatever an engine with a new
cache was asked for before, a selection that is made of a query without links of entities, custom
leaves and placeholders is listed with the failure of the store, for any number of attempts.  After
them it has the outcome that it would have had without them, if its queries recur in the cache. -/
theorem exists_failure_and_retry {capacity shards : Nat} {concurrent : Bool} {s : State}
    (created : QueryCache.create? capacity concurrent shards = .ok session.start.cache)
    (undecided : session.start.memo = []) (history : session.ReachesBy Query.Genuine s)
    (reads : q.reads = true) (type : String) :
    ∃ (selection : Selection) (s₀ : State),
      (∀ failure, Selection.ofQuery type q (s.told failure) = .ok selection (s₀.told failure)) ∧
      (∀ messages message, ∃ failed,
        session.listed selection
          ((attempts (session.listed selection) s₀ messages).told (some message))
            = .error (.backend message) failed) ∧
      (session.Recurs s.cache q → ∀ messages,
        outcome (session.listed selection)
            ((attempts (session.listed selection) s₀ messages).told none)
          = outcome (session.listed selection) (s₀.told none)) := by
  have new : session.start.cache = .create capacity concurrent shards := by
    simp only [QueryCache.create?] at created
    split at created
    · cases created
    split at created
    · cases created
    exact (Except.ok.inj created).symm
  have fresh : session.Fresh :=
    ⟨fun key => new ▸ QueryCache.get?_create capacity concurrent shards key, undecided⟩
  have distinct : s.cache.Distinct := by
    refine history.distinct ?_
    rw [new, ← QueryCache.createBy_spread]
    exact QueryCache.distinct_after []
  have cacheable : s.cache.Cacheable := history.cacheable fresh
  have accurate := accurate_of_reachesBy fresh history
  have free : s.memo.lookup s.nextStamp = none := by
    refine List.lookup_eq_none_iff.mpr fun entry mem => ?_
    have before := lt_nextStamp_of_reaches fresh history.reaches entry mem
    exact bne_iff_ne.mpr (Nat.ne_of_gt before)
  have expects : session.Expects { s with nextStamp := s.nextStamp + 1 } s.nextStamp q := by
    refine ⟨accurate, fun u found => ?_⟩
    cases free.symm.trans found
  refine ⟨.deferred s.nextStamp type q, { s with nextStamp := s.nextStamp + 1 }, fun _ => rfl,
    fun messages message => ?_, fun recurs messages => ?_⟩
  · have expects' := expects.attempts reads type messages
    obtain ⟨failed, ran, -⟩ := Expects.exists_failed (s := State.told _ (some message))
      ⟨expects'.accurate, expects'.decided⟩ reads rfl type
    exact ⟨failed, ran⟩
  · exact outcome_listed_after_attempts (s := { s with nextStamp := s.nextStamp + 1 }) accurate
      cacheable distinct free reads recurs type messages

set_option maxRecDepth 10000 in
/-- The first animal is found after two attempts that fail in different ways. -/
theorem exists_failure_and_retry_strays :
    QueryCache.create? 16 false 1 = .ok animals.start.cache ∧ animals.start.memo = [] ∧
      animals.ReachesBy Query.Genuine animals.start ∧ Query.strays.reads = true ∧
      animals.Recurs animals.start.cache .strays ∧
      ∃ (selection : Selection) (s₀ failed : State),
        Selection.ofQuery "animal" .strays (animals.start.told none)
          = .ok selection (s₀.told none) ∧
        animals.listed selection (s₀.told (some "disk")) = .error (.backend "disk") failed ∧
        (outcome (animals.listed selection)
          ((attempts (animals.listed selection) s₀ ["disk", "net"]).told none)).1
            = .ok [⟨0, 0⟩] := by
  have created : QueryCache.create? 16 false 1 = .ok animals.start.cache := rfl
  have recurs : animals.Recurs animals.start.cache .strays := by
    refine .inr fun table mem => ?_
    rw [(Array.mem_replicate.mp mem).2]
    decide
  have found : (outcome (animals.listed (.deferred 0 "animal" .strays))
      { animals.start with nextStamp := 1 }).1 = .ok [⟨0, 0⟩] := by decide +kernel
  have start : Selection.ofQuery "animal" .strays (animals.start.told none)
      = .ok (.deferred 0 "animal" .strays) { animals.start with nextStamp := 1 } := rfl
  obtain ⟨selection, s₀, made, fails, again⟩ :=
    exists_failure_and_retry created rfl .refl (q := .strays) rfl "animal"
  obtain ⟨rfl, left⟩ := EStateM.Result.ok.inj (start.symm.trans (made none))
  obtain ⟨failed, ran⟩ := fails [] "disk"
  refine ⟨created, rfl, .refl, rfl, recurs, _, s₀, failed, made none, ran, ?_⟩
  rw [again recurs, ← left]
  exact found

/-! ### Two orders of operands, with room for two entries -/

/-- A session with one crate, in which two queries can be remembered. -/
def crates : Session where
  metadata :=
    { subtypeNames := []
      subtypes := fun _ => []
      association := fun _ _ => none
      storage := fun _ _ => .primitive }
  settings := .default
  start := .initial
    { tables := #[⟨"crate", #[⟨[], [], []⟩]⟩]
      failure := none
      searchesLinks := true
      ordersByTargets := true }
    (.create 2 false 1)

end Session

namespace Query

/-- What is inside of something that is inside of an entity of a type. -/
def inside (type : String) : Query :=
  .linkedInto "in" (.linkedInto "in" .all type) type

/-- What is inside of either of two types that there are not, in one order. -/
def inGhosts : Query :=
  .union (inside "ghost2") (inside "ghost1")

/-- What is on something that is inside of either of them, in the other order. -/
def onGhosts : Query :=
  .linkedInto "on" (.union (inside "ghost1") (inside "ghost2")) "crate"

end Query

namespace Session

set_option maxRecDepth 100000 in
/-- After the query within it was optimized in one order, a selection by the other order is listed
with the second fault if nothing fails before, and with the first one if something does. -/
theorem retry_onGhosts :
    ∃ (s s₀ failed : State) (selection : Selection),
      QueryCache.create? 2 false 1 = .ok crates.start.cache ∧ crates.start.memo = [] ∧
        crates.ReachesBy (·.legible = true) s ∧ Query.onGhosts.reads = true ∧
        Selection.ofQuery "crate" .onGhosts s = .ok selection s₀ ∧
        crates.listed selection (s₀.told (some "disk")) = .error (.backend "disk") failed ∧
        (outcome (crates.listed selection) (failed.told none)).1
          = .error (.unknownType "ghost1") ∧
        (outcome (crates.listed selection) (s₀.told none)).1 = .error (.unknownType "ghost2") := by
  have reached : crates.ReachesBy (·.legible = true)
      { crates.start with cache := crates.start.cache.ask crates.made .inGhosts } :=
    ReachesBy.ask .refl rfl rfl
  generalize same : ({ crates.start with
    cache := crates.start.cache.ask crates.made .inGhosts, nextStamp := 1 } : State) = s₀
  have fails : (outcome (crates.listed (.deferred 0 "crate" .onGhosts))
      (s₀.told (some "disk"))).1 = .error (.backend "disk") := by
    rw [← same]
    decide +kernel
  have other : (outcome (crates.listed (.deferred 0 "crate" .onGhosts)) (s₀.told none)).1
      = .error (.unknownType "ghost2") := by
    rw [← same]
    decide +kernel
  have again : (outcome (crates.listed (.deferred 0 "crate" .onGhosts))
      ((attempt (crates.listed (.deferred 0 "crate" .onGhosts)) s₀ "disk").told none)).1
        = .error (.unknownType "ghost1") := by
    rw [← same]
    decide +kernel
  obtain ⟨failed, ran, -⟩ := exists_of_outcome_error (Prod.ext fails rfl)
  have left : attempt (crates.listed (.deferred 0 "crate" .onGhosts)) s₀ "disk" = failed := by
    rw [attempt, final, ran]
  rw [left] at again
  subst same
  exact ⟨_, _, failed, _, rfl, rfl, reached, rfl, rfl, ran, again, other⟩

end Session

end ExtentQuery
