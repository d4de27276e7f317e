import ExtentQuery.Backend.Memory
import ExtentQuery.Selection
import Mathlib.Data.List.Forall2
import Mathlib.Logic.Relation

/-!
# Sessions

A session is an engine over the reference backend together with the state in which it
starts.  Whatever the engine computes changes the state in a few ways only (`Step`), and
none of them touches the store.  A computation of a session starts in a state that the
session reaches, and what is proved about its result is proved for all of these states
at once.

* `Session.Step`, `Session.Reaches` — what a computation may change, and the states that
  come about in this way;
* `Session.Yields` — what holds of the result of a computation, if there is one;
* `Session.yields_bind`, `Session.yields_mapM`, `Session.yields_foldlM` — the rules by
  which this is carried from parts to the whole.

**Results only.**  A `Yields` says nothing of a computation that faults.  It does say that
one that does not fault leaves the session in a state that the session reaches, so the
next computation can be reasoned about in the same way.
-/

namespace ExtentQuery

open Rewrite (Optimized)

/-- A computation that answers has answered both of its parts. -/
theorem Effect.exists_of_bind {α β : Type} {x : Effect α} {f : α → Effect β} {s s' : State}
    {b : β} (ran : (x >>= f) s = .ok b s') :
    ∃ a s₁, x s = .ok a s₁ ∧ f a s₁ = .ok b s' := by
  cases start : x s with
  | error fault s₁ =>
    simp only [bind, EStateM.bind, start] at ran
    cases ran
  | ok a s₁ =>
    simp only [bind, EStateM.bind, start] at ran
    exact ⟨a, s₁, rfl, ran⟩

/-- An engine over the reference backend, and the state in which it starts. -/
structure Session where
  metadata : Metadata
  settings : Settings
  start : State

namespace Session

/-- The engine. -/
def engine (session : Session) : Engine :=
  ⟨.memory, session.metadata, session.settings⟩

/-- The store, which stays what it is at the start. -/
def store (session : Session) : Store :=
  session.start.store

/-- The ways in which an engine changes a state, while it remembers nothing but queries of
which a condition holds. -/
inductive Step (maxRewrites : Nat) (allowed : Query → Prop) : State → State → Prop where
  | called (s : State) (call : Call) :
      Step maxRewrites allowed s { s with calls := s.calls.add call }
  | worked (s : State) (work : Work) :
      Step maxRewrites allowed s { s with work := s.work.add work }
  | reported (s : State) (notice : Notice) :
      Step maxRewrites allowed s { s with notices := s.notices ++ [notice] }
  | stamped (s : State) : Step maxRewrites allowed s { s with nextStamp := s.nextStamp + 1 }
  /-- A look-up counts, and makes the entry it finds the most recently used one. -/
  | lookedUp (s : State) (key : String) :
      Step maxRewrites allowed s { s with cache := s.cache.count key (s.cache.get? key) }
  /-- Only what optimization makes of a query is remembered under its text. -/
  | remembered (s : State) {q : Query} {optimized : Optimized} {notices : List Notice} :
      allowed q → Rewrite.optimize maxRewrites q [] = .ok optimized notices →
      Step maxRewrites allowed s { s with cache := s.cache.store q optimized }
  | forgot (s : State) : Step maxRewrites allowed s { s with cache := s.cache.clear }
  /-- The optimized query of a deferred selection is kept with its stamp. -/
  | decided (s : State) {stamp : Nat} (optimized : Optimized) : stamp < s.nextStamp →
      Step maxRewrites allowed s { s with memo := (stamp, optimized) :: s.memo }

/-- The states that come about in a session that remembers nothing but queries of which a
condition holds. -/
def ReachesBy (session : Session) (allowed : Query → Prop) (s : State) : Prop :=
  Relation.ReflTransGen (Step session.settings.maxRewrites allowed) session.start s

/-- The states that come about in a session. -/
def Reaches (session : Session) (s : State) : Prop :=
  session.ReachesBy (fun _ => True) s

/-- Whatever a computation of a session answers satisfies a condition, in whichever
state it starts. -/
def Yields (session : Session) {α : Type} (x : Effect α) (P : α → Prop) : Prop :=
  ∀ ⦃s : State⦄ ⦃a : α⦄ ⦃s' : State⦄,
    session.Reaches s → x s = .ok a s' → session.Reaches s' ∧ P a

variable {session : Session}

theorem reaches_start : session.Reaches session.start :=
  .refl

theorem Reaches.step {s s' : State} (reached : session.Reaches s)
    (step : Step session.settings.maxRewrites (fun _ => True) s s') : session.Reaches s' :=
  Relation.ReflTransGen.tail reached step

section Steps

variable {maxRewrites : Nat} {allowed : Query → Prop} {s s' : State}

theorem Step.weaken (step : Step maxRewrites allowed s s') :
    Step maxRewrites (fun _ => True) s s' := by
  cases step with
  | called call => exact .called s call
  | worked work => exact .worked s work
  | reported notice => exact .reported s notice
  | stamped => exact .stamped s
  | lookedUp key => exact .lookedUp s key
  | remembered _ found => exact .remembered s trivial found
  | forgot => exact .forgot s
  | decided optimized handedOut => exact .decided s optimized handedOut

theorem ReachesBy.reaches (reached : session.ReachesBy allowed s) : session.Reaches s :=
  Relation.ReflTransGen.mono (fun _ _ => Step.weaken) _ _ reached

theorem Step.store (step : Step maxRewrites allowed s s') : s'.store = s.store := by
  cases step <;> rfl

/-- A session never changes the store. -/
theorem Reaches.store (reached : session.Reaches s) : s.store = session.store := by
  induction reached with
  | refl => rfl
  | tail _ step ih => rw [step.store, ih]

theorem Step.nextStamp_le (step : Step maxRewrites allowed s s') :
    s.nextStamp ≤ s'.nextStamp := by
  cases step with
  | stamped => exact Nat.le_succ _
  | _ => exact Nat.le_refl _

/-- A session hands out its stamps in order. -/
theorem Reaches.nextStamp_le (reached : session.Reaches s) :
    session.start.nextStamp ≤ s.nextStamp := by
  induction reached with
  | refl => exact Nat.le_refl _
  | tail _ step ih => exact Nat.le_trans ih step.nextStamp_le

end Steps

/-! ### Rules -/

section Rules

variable {α β : Type} {x : Effect α} {P Q : α → Prop}

theorem Yields.mono (yields : session.Yields x P) (weaker : ∀ a, P a → Q a) :
    session.Yields x Q := fun _ _ _ reached ran =>
  let ⟨reached', holds⟩ := yields reached ran
  ⟨reached', weaker _ holds⟩

theorem Yields.and (first : session.Yields x P) (second : session.Yields x Q) :
    session.Yields x fun a => P a ∧ Q a := fun _ _ _ reached ran =>
  let ⟨reached', holds⟩ := first reached ran
  ⟨reached', holds, (second reached ran).2⟩

/-- Whatever is answered, nothing but the steps of the session was changed. -/
theorem Yields.done (yields : session.Yields x P) : session.Yields x fun _ => True :=
  yields.mono fun _ _ => trivial

theorem yields_pure {a : α} (holds : P a) : session.Yields (pure a) P := by
  rintro s _ _ reached ⟨⟩
  exact ⟨reached, holds⟩

theorem yields_throw (fault : Fault) : session.Yields (throw fault : Effect α) P := by
  rintro s _ _ _ ⟨⟩

theorem yields_bind {f : α → Effect β} {R : β → Prop} (first : session.Yields x P)
    (rest : ∀ a, P a → session.Yields (f a) R) : session.Yields (x >>= f) R := by
  intro s b s' reached ran
  obtain ⟨a, s₁, start, ran⟩ := Effect.exists_of_bind ran
  obtain ⟨reached₁, holds⟩ := first reached start
  exact rest a holds reached₁ ran

/-- A computation that is only done for what it changes. -/
theorem yields_bind_done {f : α → Effect β} {R : β → Prop}
    (first : session.Yields x fun _ => True) (rest : ∀ a, session.Yields (f a) R) :
    session.Yields (x >>= f) R :=
  yields_bind first fun a _ => rest a

theorem yields_ofExcept (answer : Except Fault α) :
    session.Yields (Effect.ofExcept answer) fun a => answer = .ok a := by
  cases answer with
  | error fault => exact yields_throw fault
  | ok a => exact yields_pure rfl

theorem yields_get : session.Yields get fun s => s.store = session.store := by
  rintro s _ _ reached ⟨⟩
  exact ⟨reached, reached.store⟩

theorem yields_reading (read : Store → Except Fault α) :
    session.Yields (Effect.reading read) fun a => read session.store = .ok a := by
  refine yields_bind yields_get fun s same => ?_
  rw [same]
  exact yields_ofExcept _

theorem yields_modify {change : State → State}
    (steps : ∀ s, Step session.settings.maxRewrites (fun _ => True) s (change s)) :
    session.Yields (modify change) fun _ => True := by
  rintro s _ _ reached ⟨⟩
  exact ⟨reached.step (steps s), trivial⟩

theorem yields_countCall (call : Call) :
    session.Yields (Effect.countCall call) fun _ => True :=
  yields_modify fun s => .called s call

theorem yields_countWork (work : Work) :
    session.Yields (Effect.countWork work) fun _ => True :=
  yields_modify fun s => .worked s work

theorem yields_report (notice : Notice) :
    session.Yields (Effect.report notice) fun _ => True :=
  yields_modify fun s => .reported s notice

theorem yields_freshStamp : session.Yields Effect.freshStamp fun _ => True := by
  rintro s _ _ reached ⟨⟩
  exact ⟨reached.step (.stamped s), trivial⟩

/-- What holds of each answer holds of the list of answers, entry by entry. -/
theorem yields_mapM {f : α → Effect β} {R : α → β → Prop} (l : List α)
    (each : ∀ a ∈ l, session.Yields (f a) (R a)) :
    session.Yields (l.mapM f) (List.Forall₂ R l) := by
  induction l with
  | nil => exact yields_pure .nil
  | cons a l ih =>
    rw [List.mapM_cons]
    refine yields_bind (each a List.mem_cons_self) fun b first => ?_
    refine yields_bind (ih fun a mem => each a (.tail _ mem)) fun bs rest => ?_
    exact yields_pure (.cons first rest)

/-- An invariant of a fold: `Inv done b` says what the result `b` is after the entries
`done`. -/
theorem yields_foldlM {f : β → α → Effect β} (Inv : List α → β → Prop) (l : List α)
    (each : ∀ done b, ∀ a ∈ l, Inv done b → session.Yields (f b a) (Inv (done ++ [a])))
    {b : β} (holds : Inv [] b) : session.Yields (l.foldlM f b) (Inv l) := by
  suffices continued : ∀ (rest done : List α) (b : β), (∀ a ∈ rest, a ∈ l) → Inv done b →
      session.Yields (rest.foldlM f b) (Inv (done ++ rest)) from
    continued l [] b (fun _ mem => mem) holds
  intro rest
  induction rest with
  | nil =>
    intro done b _ holds
    rw [List.append_nil]
    exact yields_pure holds
  | cons a rest ih =>
    intro done b within holds
    rw [List.foldlM_cons, List.append_cons]
    refine yields_bind (each done b a (within a List.mem_cons_self) holds) fun b' holds' => ?_
    exact ih (done ++ [a]) b' (fun a mem => within a (.tail _ mem)) holds'

theorem yields_forM {f : α → Effect Unit} (l : List α)
    (each : ∀ a ∈ l, session.Yields (f a) fun _ => True) :
    session.Yields (l.forM f) fun _ => True := by
  induction l with
  | nil => exact yields_pure trivial
  | cons a l ih =>
    rw [List.forM_eq_forM, List.forM_cons]
    exact yields_bind_done (each a List.mem_cons_self) fun _ =>
      ih fun a mem => each a (.tail _ mem)

end Rules

end Session

end ExtentQuery
