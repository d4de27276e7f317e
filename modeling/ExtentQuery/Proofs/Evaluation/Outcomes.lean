import ExtentQuery.Proofs.Caching.Asking
import ExtentQuery.Proofs.Evaluation.Composition

/-!
# What a computation gives, apart from counts and notices

Two states that differ in their counts and in the notices that were reported are as good as each
other: whatever is computed next gives the same answer or the same fault in both, and the states
that it leaves behind again differ in counts and notices only.

* `State.bare` — a state without its counts and notices;
* `Effect.outcome` — the answer or the fault of a computation, with what it leaves behind;
* `Effect.Steady` — computations with the same outcome in states that are as good as each other;
* `Effect.composes_steady`, `Session.steady_answerWithin` — all computations of an engine are.
-/

namespace ExtentQuery

open Effect
open Rewrite (Optimized)

/-- A state without counts and notices. -/
def State.bare (s : State) : State :=
  { s with calls := .empty, work := .empty, notices := [], cache := s.cache.bare }

namespace Effect

variable {α β : Type} {x : Effect α} {f : α → Effect β} {s t s' : State}

/-- What a computation answers, or the fault in which it ends, and the state that it leaves
behind without counts and notices. -/
def outcome (x : Effect α) (s : State) : Except Fault α × State :=
  match x s with
  | .ok a s' => (.ok a, s'.bare)
  | .error fault s' => (.error fault, s'.bare)

theorem outcome_of_ok {a : α} (ran : x s = .ok a s') : outcome x s = (.ok a, s'.bare) := by
  rw [outcome, ran]

theorem outcome_of_error {fault : Fault} (ran : x s = .error fault s') :
    outcome x s = (.error fault, s'.bare) := by
  rw [outcome, ran]

theorem exists_of_outcome_ok {a : α} {u : State} (ended : outcome x s = (.ok a, u)) :
    ∃ s', x s = .ok a s' ∧ s'.bare = u := by
  unfold outcome at ended
  cases ran : x s with
  | ok a' s' =>
    simp only [ran, Prod.mk.injEq, Except.ok.injEq] at ended
    exact ⟨s', by rw [ended.1], ended.2⟩
  | error fault s' => simp [ran] at ended

theorem exists_of_outcome_error {fault : Fault} {u : State}
    (ended : outcome x s = (.error fault, u)) : ∃ s', x s = .error fault s' ∧ s'.bare = u := by
  unfold outcome at ended
  cases ran : x s with
  | ok a s' => simp [ran] at ended
  | error fault' s' =>
    simp only [ran, Prod.mk.injEq, Except.error.injEq] at ended
    exact ⟨s', by rw [ended.1], ended.2⟩

/-! ### Steady computations -/

/-- Whether the outcome of a computation does not depend on counts and notices. -/
def Steady (x : Effect α) : Prop :=
  ∀ s t : State, s.bare = t.bare → outcome x s = outcome x t

/-- What comes after a computation that answers. -/
theorem outcome_bind_of_ok {a : α} (ran : x s = .ok a s') :
    outcome (x >>= f) s = outcome (f a) s' := by
  simp only [outcome, bind, EStateM.bind, ran]

/-- Nothing comes after a computation that faults. -/
theorem outcome_bind_of_error {fault : Fault} (ran : x s = .error fault s') :
    outcome (x >>= f) s = (.error fault, s'.bare) := by
  simp only [outcome, bind, EStateM.bind, ran]

/-- What comes after computations with the same outcome has the same outcome. -/
theorem outcome_bind_congr (same : outcome x s = outcome x t) (rest : ∀ a, Steady (f a)) :
    outcome (x >>= f) s = outcome (x >>= f) t := by
  cases first : x s with
  | ok a s₁ =>
    rw [outcome_of_ok first] at same
    obtain ⟨t₁, second, alike⟩ := exists_of_outcome_ok same.symm
    rw [outcome_bind_of_ok first, outcome_bind_of_ok second, rest a s₁ t₁ alike.symm]
  | error fault s₁ =>
    rw [outcome_of_error first] at same
    obtain ⟨t₁, second, alike⟩ := exists_of_outcome_error same.symm
    rw [outcome_bind_of_error first, outcome_bind_of_error second, alike]

theorem steady_pure (a : α) : Steady (pure a) :=
  fun _ _ same => congrArg (Prod.mk (Except.ok a)) same

theorem steady_throw (fault : Fault) : Steady (throw fault : Effect α) :=
  fun _ _ same => congrArg (Prod.mk (Except.error fault)) same

/-- A change that does not depend on counts and notices. -/
theorem steady_modifyGet {change : State → α × State}
    (steady : ∀ s t, s.bare = t.bare →
      (change s).1 = (change t).1 ∧ (change s).2.bare = (change t).2.bare) :
    Steady (modifyGet change : Effect α) := by
  intro s t same
  obtain ⟨answers, states⟩ := steady s t same
  show (Except.ok (change s).1, (change s).2.bare) = (Except.ok (change t).1, (change t).2.bare)
  rw [answers, states]

theorem steady_report (notice : Notice) : Steady (report notice) :=
  steady_modifyGet fun _ _ same => ⟨rfl, same⟩

/-- What is put together from steady computations is steady. -/
theorem composes_steady : Composes @Steady where
  of_pure := steady_pure
  of_throw := steady_throw
  of_bind first rest s t same := outcome_bind_congr (first s t same) rest
  of_countCall _ := steady_modifyGet fun _ _ same => ⟨rfl, same⟩
  of_countWork _ := steady_modifyGet fun _ _ same => ⟨rfl, same⟩
  of_freshStamp := steady_modifyGet fun s t same =>
    ⟨(congrArg State.nextStamp same : s.bare.nextStamp = t.bare.nextStamp),
      congrArg (fun u : State => { u with nextStamp := u.nextStamp + 1 }) same⟩
  of_get {α f} alike rest s t same := by
    have stores : s.bare.store = t.bare.store := congrArg State.store same
    show outcome (f s) s = outcome (f t) t
    rw [alike s t stores]
    exact rest t s t same

end Effect

/-! ### Optimization -/

namespace Cache.QueryCache

theorem bare_store (cache : QueryCache) (q : Query) (optimized : Optimized) :
    (cache.store q optimized).bare = cache.bare.store q optimized := by
  unfold store
  split <;> rfl

theorem bare_find (cache : QueryCache) (q : Query) :
    (cache.find q).2.bare = (cache.bare.find q).2.bare := by
  simp only [find, lookup]
  show (cache.count q.canonical (cache.get? q.canonical)).bare
    = (cache.bare.count q.canonical (cache.get? q.canonical)).bare
  cases cache.get? q.canonical <;> rfl

end Cache.QueryCache

namespace Session

variable {session : Session}

theorem steady_optimizeNow (q : Query) : Steady (session.engine.optimizeNow q) := by
  have reports : ∀ notices : List Notice, Steady (notices.forM report) :=
    composes_steady.of_forM steady_report
  unfold Engine.optimizeNow
  split
  case h_1 fault notices _ =>
    exact composes_steady.of_bind (reports notices) fun _ => steady_throw fault
  case h_2 optimized notices _ =>
    have bare_stored : ∀ s : State, ({ s with cache := s.cache.store q optimized } : State).bare
        = { s.bare with cache := s.bare.cache.store q optimized } := fun s =>
      congrArg (fun cache => { s.bare with cache := cache }) (s.cache.bare_store q optimized)
    refine composes_steady.of_bind (reports notices) fun _ => composes_steady.of_bind
      (steady_modifyGet fun s t same => ⟨rfl, ?_⟩) fun _ => steady_pure optimized
    rw [bare_stored, bare_stored, same]

theorem steady_optimize (q : Query) : Steady (session.engine.optimize q) := by
  have bare_found : ∀ s : State, ({ s with cache := (s.cache.find q).2 } : State).bare
      = { s.bare with cache := (s.bare.cache.find q).2.bare } := fun s =>
    congrArg (fun cache => { s.bare with cache := cache }) (s.cache.bare_find q)
  have lookUp : Steady (modifyGet fun s : State =>
      ((s.cache.find q).1, { s with cache := (s.cache.find q).2 }) : Effect (Option Optimized)) :=
    steady_modifyGet fun s t same =>
      ⟨(congrArg (fun u : State => (u.cache.find q).1) same :
          (s.bare.cache.find q).1 = (t.bare.cache.find q).1),
        by rw [bare_found, bare_found, same]⟩
  have counted : ∀ optimized : Optimized, Steady (do
      countWork .optimization
      return optimized) := fun optimized =>
    composes_steady.of_bind (composes_steady.of_countWork _) fun _ => steady_pure optimized
  refine composes_steady.of_bind lookUp fun found => ?_
  cases found with
  | some optimized => exact composes_steady.of_bind (steady_pure optimized) counted
  | none => exact composes_steady.of_bind (steady_optimizeNow q) counted

theorem steady_answerWithin (levels : Nat) (type : String) (q : Query) :
    Steady (session.engine.answerWithin levels type q) :=
  composes_steady.of_answerWithin steady_report steady_optimize levels type q

theorem steady_answerOptimized (levels : Nat) (type : String) (optimized : Optimized) :
    Steady (session.engine.answerOptimized (session.engine.answerWithin levels) type optimized) :=
  composes_steady.of_answerOptimized steady_report (steady_answerWithin levels) type optimized

end Session

end ExtentQuery
