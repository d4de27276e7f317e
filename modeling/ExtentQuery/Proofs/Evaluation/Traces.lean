import ExtentQuery.Proofs.Evaluation.Composition

/-!
# What look-ups and operations leave behind

Looking entities up, combining and sorting them counts calls and work and hands out stamps.
Nothing else is changed by it: neither the store nor the cache, no notice is reported, and
nothing is decided about selections.  This holds whether the computation answers or faults.

* `Effect.final` — the state that a computation leaves behind, also if it faults;
* `State.Counted`, `Effect.Quiet` — states that differ in counts and stamps only, and
  computations that only lead to such states;
* `Effect.composes_quiet` — what is put together from quiet computations is quiet, hence every
  operation of the backend and of the engine that neither optimizes nor compares two ways.
-/

namespace ExtentQuery

open Effect

/-! ### Quiet computations -/

/-- Whether a later state differs in its counts and in the stamps that are handed out only. -/
structure State.Counted (s s' : State) : Prop where
  store : s'.store = s.store
  cache : s'.cache = s.cache
  notices : s'.notices = s.notices
  memo : s'.memo = s.memo
  nextStamp_le : s.nextStamp ≤ s'.nextStamp

theorem State.Counted.refl (s : State) : s.Counted s :=
  ⟨rfl, rfl, rfl, rfl, Nat.le_refl _⟩

theorem State.Counted.trans {s s₁ s₂ : State} (first : s.Counted s₁) (second : s₁.Counted s₂) :
    s.Counted s₂ where
  store := second.store.trans first.store
  cache := second.cache.trans first.cache
  notices := second.notices.trans first.notices
  memo := second.memo.trans first.memo
  nextStamp_le := Nat.le_trans first.nextStamp_le second.nextStamp_le

namespace Effect

section Final

variable {ε σ α β : Type}

/-- The state that a computation leaves behind. -/
def final (x : EStateM ε σ α) (s : σ) : σ :=
  match x s with
  | .ok _ s' => s'
  | .error _ s' => s'

theorem final_of_ok {x : EStateM ε σ α} {s s' : σ} {a : α} (ran : x s = .ok a s') :
    final x s = s' := by
  rw [final, ran]

/-- A computation of two parts ends where the first part faults, or where the second part ends. -/
theorem final_bind (x : EStateM ε σ α) (f : α → EStateM ε σ β) (s : σ) :
    final (x >>= f) s = final x s ∨
      ∃ a s₁, x s = .ok a s₁ ∧ final (x >>= f) s = final (f a) s₁ := by
  cases ran : x s with
  | error fault s' =>
    left
    simp only [final, bind, EStateM.bind, ran]
  | ok a s₁ =>
    right
    refine ⟨a, s₁, rfl, ?_⟩
    simp only [final, bind, EStateM.bind, ran]

end Final

variable {α β : Type}

/-- Whether a computation changes counts and stamps only, whether it answers or faults. -/
def Quiet (x : Effect α) : Prop :=
  ∀ s : State, s.Counted (final x s)

theorem quiet_pure (a : α) : Quiet (pure a) :=
  fun s => .refl s

theorem quiet_throw (fault : Fault) : Quiet (throw fault : Effect α) :=
  fun s => .refl s

theorem quiet_get : Quiet get :=
  fun s => .refl s

theorem Quiet.bind {x : Effect α} {f : α → Effect β} (first : Quiet x) (rest : ∀ a, Quiet (f a)) :
    Quiet (x >>= f) := by
  intro s
  rcases final_bind x f s with stopped | ⟨a, s₁, ran, continued⟩
  · rw [stopped]
    exact first s
  · rw [continued, ← final_of_ok ran]
    exact (first s).trans (rest a _)

theorem quiet_countCall (call : Call) : Quiet (countCall call) :=
  fun _ => ⟨rfl, rfl, rfl, rfl, Nat.le_refl _⟩

theorem quiet_countWork (work : Work) : Quiet (countWork work) :=
  fun _ => ⟨rfl, rfl, rfl, rfl, Nat.le_refl _⟩

/-- What is put together from quiet computations is quiet. -/
theorem composes_quiet : Composes @Quiet where
  of_pure := quiet_pure
  of_throw := quiet_throw
  of_bind := Quiet.bind
  of_countCall := quiet_countCall
  of_countWork := quiet_countWork
  of_freshStamp _ := ⟨rfl, rfl, rfl, rfl, Nat.le_succ _⟩
  of_get _ rest := quiet_get.bind rest

theorem quiet_reading (read : Store → Except Fault α) : Quiet (reading read) :=
  composes_quiet.of_reading read

/-- Reporting always succeeds. -/
theorem forM_report (notices : List Notice) (s : State) :
    notices.forM report s = .ok () { s with notices := s.notices ++ notices } := by
  induction notices generalizing s with
  | nil => rw [List.append_nil]; rfl
  | cons notice notices ih =>
    show notices.forM report { s with notices := s.notices ++ [notice] } = _
    rw [ih, List.append_assoc, List.singleton_append]

theorem quiet_mapM {f : α → Effect β} (each : ∀ a, Quiet (f a)) (l : List α) :
    Quiet (l.mapM f) :=
  composes_quiet.of_mapM each l

theorem quiet_forM {f : α → Effect Unit} (each : ∀ a, Quiet (f a)) (l : List α) :
    Quiet (l.forM f) :=
  composes_quiet.of_forM each l

end Effect

/-! ### Iterations and look-ups -/

theorem Listing.quiet_start (listing : Listing) : Quiet listing.start :=
  composes_quiet.of_start listing

theorem Listing.quiet_collect (listing : Listing) : Quiet listing.collect :=
  composes_quiet.of_listing_collect listing

namespace Rows

theorem quiet_ofIds (ids : List EntityId) : Quiet (ofIds ids) :=
  composes_quiet.of_ofIds ids

theorem quiet_collect (rows : Rows) : Quiet rows.collect :=
  composes_quiet.of_collect rows

end Rows

namespace Backend.Memory

theorem quiet_snapshot (ids : List EntityId) (inIdOrder : Bool) :
    Quiet (snapshot ids inIdOrder) :=
  composes_quiet.of_snapshot ids inIdOrder

theorem quiet_lookUp (call : Call) (type : String) (keep : Record → Bool) :
    Quiet (lookUp call type keep) :=
  composes_quiet.of_lookUp call type keep

theorem quiet_linkTargets (id : EntityId) (link : String) : Quiet (linkTargets id link) :=
  composes_quiet.of_linkTargets id link

theorem quiet_searchLinks (source targets : Listing) (link : String) :
    Quiet (searchLinks source targets link) :=
  composes_quiet.of_searchLinks source targets link

theorem quiet_combine (operation : SetOperation) (left right : Listing) :
    Quiet (combine operation left right) :=
  composes_quiet.of_backend_combine operation left right

theorem quiet_sortType (type property : String) (source : Option Listing) (ascending : Bool) :
    Quiet (sortType type property source ascending) :=
  composes_quiet.of_sortType type property source ascending

theorem quiet_orderByTargets (request : TargetOrder) : Quiet (orderByTargets request) :=
  composes_quiet.of_orderByTargets request

end Backend.Memory

/-! ### Operations on rows -/

namespace Session

variable {session : Session}

theorem quiet_combine (operation : SetOperation) (left right : Rows) :
    Quiet (session.engine.combine operation left right) :=
  composes_quiet.of_combine operation left right

theorem quiet_having (type property : String) : Quiet (session.engine.having type property) :=
  composes_quiet.of_having type property

theorem quiet_joinParts (parts : List Rows) : Quiet (session.engine.joinParts parts) :=
  composes_quiet.of_joinParts parts

theorem quiet_linkedToAny (type link : String) (targets : Rows) :
    Quiet (session.engine.linkedToAny type link targets) :=
  composes_quiet.of_linkedToAny type link targets

theorem quiet_sortProperty (type property : String) (source : Option Rows) (ascending : Bool) :
    Quiet (session.engine.sortProperty type property source ascending) :=
  composes_quiet.of_sortProperty type property source ascending

theorem quiet_sortKeyed (source : Rows) (key : SortKey) (ascending : Bool) :
    Quiet (session.engine.sortKeyed source key ascending) :=
  composes_quiet.of_sortKeyed source key ascending

theorem quiet_sortLinked (targetType property type link : String) (source : Rows)
    (ascending : Bool) :
    Quiet (session.engine.sortLinked targetType property type link source ascending) :=
  composes_quiet.of_sortLinked targetType property type link source ascending

end Session

end ExtentQuery
