import ExtentQuery.Proofs.Evaluation.SortedListings
import ExtentQuery.Proofs.Sorting.Answering

/-!
# The faults of a sort

A `Yields` says nothing of a computation that faults.  Which faults there can be is stated on
its own, and a computation that has none answers.

* `Session.FaultsWithin` — a computation faults in certain ways only, with rules that go along
  with those of `Session.Yields`;
* `Store.SortFault` — the faults in which a sort by a property can end, if all types are
  registered and all entities exist;
* `Session.faultsWithin_sortTypes` — sorting a hierarchy without cycles;
* `Session.exists_failure_sortTypes` — sorting a hierarchy in a store that is told to fail.

**Contradicting comparisons.**  Only keys that mix integers and floating-point numbers can leave a
sort without an answer.
-/

namespace ExtentQuery

open Effect
open Sorting (Readable byKey)

theorem Effect.exists_of_bind_eq_error {α β : Type} {x : Effect α} {f : α → Effect β}
    {s s' : State} {fault : Fault} (ran : (x >>= f) s = .error fault s') :
    x s = .error fault s' ∨ ∃ a s₁, x s = .ok a s₁ ∧ f a s₁ = .error fault s' := by
  cases start : x s with
  | error first s₁ =>
    simp only [bind, EStateM.bind, start] at ran
    cases ran
    exact .inl rfl
  | ok a s₁ =>
    simp only [bind, EStateM.bind, start] at ran
    exact .inr ⟨a, s₁, rfl, ran⟩

theorem Effect.bind_eq_of_ok {α β : Type} {x : Effect α} {f : α → Effect β} {a : α}
    {s s' : State} (ran : x s = .ok a s') : (x >>= f) s = f a s' := by
  simp only [bind, EStateM.bind, ran]

theorem Effect.bind_eq_error {α β : Type} {x : Effect α} {f : α → Effect β} {s s' : State}
    {fault : Fault} (ran : x s = .error fault s') : (x >>= f) s = .error fault s' := by
  simp only [bind, EStateM.bind, ran]

/-- Whether rows are made in a state and listed. -/
def Effect.Collects (x : Effect Rows) (s : State) (ids : List EntityId) : Prop :=
  ∃ s', (do (← x).collect) s = .ok ids s'

/-- Rows that are made by what comes after a computation that answers. -/
theorem Effect.Collects.bind {α : Type} {x : Effect α} {f : α → Effect Rows} {a : α}
    {s s₁ : State} {ids : List EntityId} (ran : x s = .ok a s₁) (rest : (f a).Collects s₁ ids) :
    (x >>= f).Collects s ids := by
  obtain ⟨s', listed⟩ := rest
  refine ⟨s', ?_⟩
  rw [bind_assoc, Effect.bind_eq_of_ok ran]
  exact listed

/-- Whether making rows in a state, or listing them, faults. -/
def Effect.Fails (x : Effect Rows) (s : State) (fault : Fault) : Prop :=
  ∃ s', (do (← x).collect) s = .error fault s'

/-- Whether rows do not end in a fault. -/
def Rows.Whole : Rows → Prop
  | native listing => listing.failure = none
  | _ => True

namespace Session

variable {session : Session} {faults : Fault → Prop}

/-- Whether a computation of a session, if it faults, does so in one of certain ways, in whichever
state it starts. -/
def FaultsWithin (session : Session) (faults : Fault → Prop) {α : Type} (x : Effect α) : Prop :=
  ∀ ⦃s : State⦄ ⦃fault : Fault⦄ ⦃s' : State⦄,
    session.Reaches s → x s = .error fault s' → faults fault

/-! ### Rules -/

section Rules

variable {α β : Type} {x : Effect α} {P : α → Prop}

theorem FaultsWithin.mono {faults' : Fault → Prop} (within : session.FaultsWithin faults x)
    (weaker : ∀ fault, faults fault → faults' fault) : session.FaultsWithin faults' x :=
  fun _ _ _ reached ran => weaker _ (within reached ran)

theorem faultsWithin_pure (a : α) : session.FaultsWithin faults (pure a) := by
  rintro s fault s' _ ⟨⟩

theorem faultsWithin_bind {f : α → Effect β} (first : session.FaultsWithin faults x)
    (yields : session.Yields x P) (rest : ∀ a, P a → session.FaultsWithin faults (f a)) :
    session.FaultsWithin faults (x >>= f) := by
  intro s fault s' reached ran
  rcases Effect.exists_of_bind_eq_error ran with ran | ⟨a, s₁, start, ran⟩
  · exact first reached ran
  · obtain ⟨reached₁, holds⟩ := yields reached start
    exact rest a holds reached₁ ran

theorem faultsWithin_ofExcept {answer : Except Fault α}
    (within : ∀ fault, answer = .error fault → faults fault) :
    session.FaultsWithin faults (Effect.ofExcept answer) := by
  cases answer with
  | error fault =>
    rintro s _ s' _ ⟨⟩
    exact within fault rfl
  | ok a => exact faultsWithin_pure a

theorem faultsWithin_get : session.FaultsWithin faults get := by
  rintro s fault s' _ ⟨⟩

theorem faultsWithin_reading {read : Store → Except Fault α}
    (within : ∀ fault, read session.store = .error fault → faults fault) :
    session.FaultsWithin faults (Effect.reading read) := by
  refine faultsWithin_bind faultsWithin_get yields_get fun s same => ?_
  rw [same]
  exact faultsWithin_ofExcept within

theorem faultsWithin_modify (change : State → State) :
    session.FaultsWithin faults (modify change) := by
  rintro s fault s' _ ⟨⟩

theorem faultsWithin_countCall (call : Call) : session.FaultsWithin faults (Effect.countCall call) :=
  faultsWithin_modify _

theorem faultsWithin_countWork (work : Work) : session.FaultsWithin faults (Effect.countWork work) :=
  faultsWithin_modify _

theorem faultsWithin_report (notice : Notice) :
    session.FaultsWithin faults (Effect.report notice) :=
  faultsWithin_modify _

theorem faultsWithin_freshStamp : session.FaultsWithin faults Effect.freshStamp := by
  rintro s fault s' _ ⟨⟩

theorem faultsWithin_mapM {f : α → Effect β} (l : List α)
    (each : ∀ a ∈ l, session.FaultsWithin faults (f a))
    (yields : ∀ a ∈ l, session.Yields (f a) fun _ => True) :
    session.FaultsWithin faults (l.mapM f) := by
  induction l with
  | nil => exact faultsWithin_pure _
  | cons a l ih =>
    rw [List.mapM_cons]
    refine faultsWithin_bind (each a List.mem_cons_self) (yields a List.mem_cons_self) fun b _ => ?_
    refine faultsWithin_bind (ih (fun other mem => each other (.tail _ mem))
      fun other mem => yields other (.tail _ mem)) (P := fun _ => True) ?_ fun _ _ =>
        faultsWithin_pure _
    exact (yields_mapM (R := fun _ _ => True) l fun other mem => yields other (.tail _ mem)).done

theorem faultsWithin_forM {f : α → Effect Unit} (l : List α)
    (each : ∀ a ∈ l, session.FaultsWithin faults (f a))
    (yields : ∀ a ∈ l, session.Yields (f a) fun _ => True) :
    session.FaultsWithin faults (l.forM f) := by
  induction l with
  | nil => exact faultsWithin_pure _
  | cons a l ih =>
    rw [List.forM_eq_forM, List.forM_cons]
    exact faultsWithin_bind (each a List.mem_cons_self) (yields a List.mem_cons_self) fun _ _ =>
      ih (fun other mem => each other (.tail _ mem)) fun other mem => yields other (.tail _ mem)

/-- A fold of which each step keeps an invariant. -/
theorem faultsWithin_foldlM {f : β → α → Effect β} {I : β → Prop} (l : List α)
    (each : ∀ b, ∀ a ∈ l, I b → session.FaultsWithin faults (f b a))
    (keeps : ∀ b, ∀ a ∈ l, I b → session.Yields (f b a) I) {b : β} (holds : I b) :
    session.FaultsWithin faults (l.foldlM f b) := by
  induction l generalizing b with
  | nil => exact faultsWithin_pure b
  | cons a l ih =>
    rw [List.foldlM_cons]
    refine faultsWithin_bind (each b a List.mem_cons_self holds) (keeps b a List.mem_cons_self holds)
      fun b' holds' => ?_
    exact ih (fun b other mem => each b other (.tail _ mem))
      (fun b other mem => keeps b other (.tail _ mem)) holds'

/-- A computation answers or faults. -/
theorem FaultsWithin.exists_or {s : State} (within : session.FaultsWithin faults x)
    (yields : session.Yields x P) (reached : session.Reaches s) :
    (∃ a s', x s = .ok a s' ∧ P a) ∨ ∃ fault s', x s = .error fault s' ∧ faults fault := by
  cases ran : x s with
  | ok a s' => exact .inl ⟨a, s', rfl, (yields reached ran).2⟩
  | error fault s' => exact .inr ⟨fault, s', rfl, within reached ran⟩

end Rules

/-! ### Listings -/

theorem faultsWithin_start (listing : Listing) : session.FaultsWithin faults listing.start := by
  unfold Listing.start
  split
  · exact faultsWithin_pure _
  · exact faultsWithin_countCall _

section Ends

variable {listing : Listing} (ends : ∀ fault, listing.failure = some fault → faults fault)

include ends

theorem faultsWithin_finish_ends : session.FaultsWithin faults listing.finish := by
  unfold Listing.finish
  split
  case h_1 => exact faultsWithin_pure _
  case h_2 fault ended =>
    rintro s _ s' _ ⟨⟩
    exact ends fault ended

theorem faultsWithin_listing_collect_ends : session.FaultsWithin faults listing.collect :=
  faultsWithin_bind (faultsWithin_start listing) (yields_start listing) fun _ _ =>
    faultsWithin_bind (faultsWithin_finish_ends ends) (yields_finish listing) fun _ _ =>
      faultsWithin_pure _

theorem faultsWithin_listing_mapM_ends {α : Type} {f : EntityId → Effect α}
    (each : ∀ id ∈ listing.ids, session.FaultsWithin faults (f id))
    (yields : ∀ id ∈ listing.ids, session.Yields (f id) fun _ => True) :
    session.FaultsWithin faults (listing.mapM f) := by
  refine faultsWithin_bind (faultsWithin_start listing) (yields_start listing) fun _ _ => ?_
  refine faultsWithin_bind (faultsWithin_mapM listing.ids each yields)
    (yields_mapM (R := fun _ _ => True) listing.ids yields) fun _ _ => ?_
  exact faultsWithin_bind (faultsWithin_finish_ends ends) (yields_finish listing) fun _ _ =>
    faultsWithin_pure _

end Ends

theorem not_ends {listing : Listing} (whole : listing.failure = none) :
    ∀ fault, listing.failure = some fault → faults fault := by
  intro fault ended
  rw [whole] at ended
  cases ended

theorem faultsWithin_finish {listing : Listing} (whole : listing.failure = none) :
    session.FaultsWithin faults listing.finish :=
  faultsWithin_finish_ends (not_ends whole)

theorem faultsWithin_listing_collect {listing : Listing} (whole : listing.failure = none) :
    session.FaultsWithin faults listing.collect :=
  faultsWithin_listing_collect_ends (not_ends whole)

theorem faultsWithin_listing_mapM {α : Type} {f : EntityId → Effect α} {listing : Listing}
    (whole : listing.failure = none) (each : ∀ id ∈ listing.ids, session.FaultsWithin faults (f id))
    (yields : ∀ id ∈ listing.ids, session.Yields (f id) fun _ => True) :
    session.FaultsWithin faults (listing.mapM f) :=
  faultsWithin_listing_mapM_ends (not_ends whole) each yields

/-- An iteration over rows of which each step keeps an invariant. -/
theorem faultsWithin_foldM {α : Type} {f : α → EntityId → Effect α} {I : α → Prop} {rows : Rows}
    (whole : rows.Whole) (each : ∀ a id, I a → session.FaultsWithin faults (f a id))
    (keeps : ∀ a id, I a → session.Yields (f a id) I) {a : α} (holds : I a) :
    session.FaultsWithin faults (rows.foldM f a) := by
  have fold : ∀ ids : List EntityId, session.FaultsWithin faults (ids.foldlM f a) := fun ids =>
    faultsWithin_foldlM ids (fun a id _ => each a id) (fun a id _ => keeps a id) holds
  cases rows with
  | empty => exact faultsWithin_pure a
  | native listing =>
    refine faultsWithin_bind (faultsWithin_start listing) (yields_start listing) fun _ _ => ?_
    refine faultsWithin_bind (fold listing.ids)
      (yields_foldlM (fun _ => I) listing.ids (fun _ a id _ => keeps a id) holds) fun _ _ => ?_
    exact faultsWithin_bind (faultsWithin_finish whole) (yields_finish listing) fun _ _ =>
      faultsWithin_pure _
  | computed stamp ids => exact fold ids

theorem faultsWithin_snapshot (ids : List EntityId) (inIdOrder : Bool) :
    session.FaultsWithin faults (Backend.Memory.snapshot ids inIdOrder) :=
  faultsWithin_bind faultsWithin_freshStamp yields_freshStamp fun _ _ => faultsWithin_pure _

theorem faultsWithin_ofIds (ids : List EntityId) : session.FaultsWithin faults (Rows.ofIds ids) := by
  cases ids with
  | nil => exact faultsWithin_pure _
  | cons id ids =>
    exact faultsWithin_bind faultsWithin_freshStamp yields_freshStamp fun _ _ => faultsWithin_pure _

theorem faultsWithin_collect {rows : Rows} (whole : rows.Whole) :
    session.FaultsWithin faults rows.collect := by
  cases rows with
  | empty => exact faultsWithin_pure _
  | native listing => exact faultsWithin_listing_collect whole
  | computed stamp ids => exact faultsWithin_pure _

/-- Collecting rows that do not end in a fault. -/
theorem faultsWithin_then_collect {x : Effect Rows} (within : session.FaultsWithin faults x)
    (yields : session.Yields x Rows.Whole) :
    session.FaultsWithin faults (do (← x).collect) :=
  faultsWithin_bind within yields fun _ whole => faultsWithin_collect whole

/-- Rows that are listed do not end in a fault. -/
theorem whole_of_collect {rows : Rows} {ids : List EntityId} {s s' : State}
    (ran : rows.collect s = .ok ids s') : rows.Whole ∧ ids = rows.ids := by
  cases rows with
  | empty | computed =>
    cases ran
    exact ⟨trivial, rfl⟩
  | native listing =>
    obtain ⟨_, _, -, ran⟩ := Effect.exists_of_bind ran
    obtain ⟨_, _, finished, ran⟩ := Effect.exists_of_bind ran
    cases ran
    refine ⟨?_, rfl⟩
    cases failure : listing.failure with
    | none => exact failure
    | some fault =>
      simp only [Listing.finish, failure] at finished
      cases finished

theorem yields_ofIds_whole (ids : List EntityId) : session.Yields (Rows.ofIds ids) Rows.Whole := by
  cases ids with
  | nil => exact yields_pure trivial
  | cons id ids => exact yields_bind_done yields_freshStamp fun _ => yields_pure trivial

end Session

namespace Store

variable {store : Store} {property : String}

/-- The fault of a store that is told to fail. -/
def Told (store : Store) : Fault → Prop
  | .backend message => store.failure = some message
  | _ => False

theorem not_told (unfailing : store.failure = none) (fault : Fault) : ¬ store.Told fault := by
  intro told
  cases fault with
  | backend message => exact nomatch unfailing.symm.trans told
  | _ => exact told

/-- The faults in which a sort by a property can end, if all types are registered and all entities
exist: the store may be told to fail, and keys may contradict one another. -/
def SortFault (store : Store) (property : String) : Fault → Prop
  | .backend message => store.failure = some message
  | .inconsistentOrder => ¬ store.Unmixed property
  | _ => False

theorem sortFault_of_told (fault : Fault) (told : store.Told fault) :
    store.SortFault property fault := by
  cases fault with
  | backend message => exact told
  | _ => exact told.elim

/-- A store that is not told to fail sorts by unmixed keys. -/
theorem not_sortFault (unfailing : store.failure = none) (unmixed : store.Unmixed property)
    (fault : Fault) : ¬ store.SortFault property fault := by
  intro sortFault
  cases fault with
  | backend message =>
    have told : store.failure = some message := sortFault
    rw [unfailing] at told
    cases told
  | inconsistentOrder => exact sortFault unmixed
  | _ => exact sortFault

/-- Whether an entity has a record. -/
def Exists (store : Store) (id : EntityId) : Prop :=
  (store.record? id).isSome = true

theorem readable_of_exists {ids : List EntityId} (each : ∀ id ∈ ids, store.Exists id) :
    Readable ((SortKey.property property).read store) (store.key property) ids := by
  intro id mem
  obtain ⟨record, found⟩ := Option.isSome_iff_exists.mp (each id mem)
  simp only [SortKey.read, Store.property, record_eq_ok.mpr found, key, found]
  rfl

/-- Sorting entities that exist faults only if their keys are mixed, with whatever method that
sorts by every transitive comparison. -/
theorem mixed_of_sortRanked {positions : Nat → Sorting.Comparison Nat → Option (List Nat)}
    (answers : ∀ length cmp, Std.TransCmp cmp → ∃ order, positions length cmp = some order)
    {ids : List EntityId} (each : ∀ id ∈ ids, store.Exists id) {ascending : Bool} {fault : Fault}
    (faulted : Sorting.sortRanked positions ((SortKey.property property).read store) ascending ids
      = .error fault) : fault = .inconsistentOrder ∧ ¬ store.Unmixed property := by
  rw [Sorting.sortRanked_eq _ (readable_of_exists each)] at faulted
  split at faulted
  case h_1 => cases faulted
  case h_2 unanswered =>
    cases faulted
    refine ⟨rfl, fun unmixed => ?_⟩
    obtain ⟨order, answered⟩ := answers ids.length
      (Sorting.byKeyAt ascending (store.key property) ids)
      (Sorting.transCmp_byKeyAt unmixed ascending ids)
    rw [unanswered] at answered
    cases answered

end Store

namespace Session

variable {session : Session} {source : Option Listing} {property type : String} {ascending : Bool}

/-! ### Sorting -/

/-- Whether the types of a hierarchy are registered. -/
def Registered (session : Session) (type : String) : Prop :=
  ∀ name, session.metadata.Derives type name → (session.store.typeId? name).isSome = true

theorem registered_of_unfolds {names : List String}
    (unfolds : session.metadata.Unfolds [type] names)
    (known : ∀ name ∈ names, (session.store.typeId? name).isSome = true) :
    session.Registered type :=
  fun name derives => known name (unfolds.mem_iff.mpr (Metadata.mem_family_iff.mpr derives))

theorem registered_household : household.Registered "animal" :=
  registered_of_unfolds tree_weighed.unfolds (by decide +kernel)

/-- Whether a source is the whole extent, or a listing of entities that exist and that does not
fault. -/
def Existing (session : Session) (source : Option Listing) : Prop :=
  ∀ listing ∈ source, listing.failure = none ∧ ∀ id ∈ listing.ids, session.store.Exists id

theorem Existing.exists_of_mem_part (existing : session.Existing source) {name : String} {id : EntityId}
    (mem : id ∈ session.part source name) : session.store.Exists id := by
  cases source with
  | some listing => exact (existing listing rfl).2 id (List.mem_filter.mp mem).1
  | none =>
    obtain ⟨record, has⟩ := Store.mem_part_none.mp mem
    exact Option.isSome_iff_exists.mpr ⟨record, has.2⟩

theorem faultsWithin_check : session.FaultsWithin session.store.Told Backend.Memory.check := by
  refine faultsWithin_reading fun fault faulted => ?_
  split at faulted
  case h_1 message told =>
    cases faulted
    exact told
  case h_2 => cases faulted

/-- A registered type can be scanned. -/
theorem faultsWithin_scan {faults : Fault → Prop} {name : String}
    (known : (session.store.typeId? name).isSome = true) (keep : Record → Bool) :
    session.FaultsWithin faults (reading (·.scan name keep)) := by
  obtain ⟨typeId, found⟩ := Option.isSome_iff_exists.mp known
  refine faultsWithin_reading fun fault faulted => ?_
  simp only [Store.scan, Store.typeId, found, bind, Except.bind, pure, Except.pure] at faulted
  cases faulted

theorem faultsWithin_extentOf {faults : Fault → Prop} {name : String}
    (known : (session.store.typeId? name).isSome = true) (existing : session.Existing source) :
    session.FaultsWithin faults (Backend.Memory.extentOf name source) := by
  obtain ⟨typeId, found⟩ := Option.isSome_iff_exists.mp known
  cases source with
  | none => exact faultsWithin_scan known fun _ => true
  | some listing =>
    refine faultsWithin_bind (P := fun _ => True) (faultsWithin_reading fun fault faulted => ?_)
      (yields_reading _).done fun _ _ => ?_
    · simp only [Store.typeId, found] at faulted
      cases faulted
    · exact faultsWithin_bind (faultsWithin_listing_collect (existing listing rfl).1)
        (yields_listing_collect listing) fun _ _ => faultsWithin_pure _

theorem faultsWithin_sortType {name : String}
    (known : (session.store.typeId? name).isSome = true) (existing : session.Existing source) :
    session.FaultsWithin (session.store.SortFault property)
      (session.engine.backend.sortType name property source ascending) := by
  refine faultsWithin_bind (faultsWithin_countCall _) (yields_countCall _) fun _ _ => ?_
  refine faultsWithin_bind (faultsWithin_check.mono Store.sortFault_of_told) (yields_reading _).done
    fun _ _ => ?_
  refine faultsWithin_bind (faultsWithin_extentOf known existing) (yields_extentOf_part name source) ?_
  rintro ids rfl
  refine faultsWithin_bind (P := fun _ => True) (faultsWithin_reading fun fault faulted => ?_)
    (yields_reading _).done fun _ _ => faultsWithin_snapshot _ _
  obtain ⟨rfl, mixed⟩ := Store.mixed_of_sortRanked
    (fun length cmp _ => Sorting.exists_stablePositions .heavy length cmp)
    (fun id mem => existing.exists_of_mem_part mem) faulted
  exact mixed

theorem faultsWithin_mergeParts {faults : Fault → Prop} {blocks : List (List String)}
    {parts : List Listing} (existing : session.Existing source)
    (permuted : List.Forall₂ (session.PermutedParts source) blocks parts) :
    session.FaultsWithin faults (session.engine.mergeParts property ascending parts) := by
  refine faultsWithin_bind (faultsWithin_countWork _) (yields_countWork _) fun _ _ => ?_
  refine faultsWithin_bind (faultsWithin_countCall _) (yields_countCall _) fun _ _ => ?_
  refine faultsWithin_bind (faultsWithin_forM parts (fun part _ => faultsWithin_start part)
    fun part _ => yields_start part) (yields_forM parts fun part _ => yields_start part)
      fun _ _ => ?_
  refine faultsWithin_bind (P := fun _ => True) (faultsWithin_reading fun fault faulted => ?_)
    (yields_reading _).done fun _ _ => faultsWithin_snapshot _ _
  have readable : ∀ run ∈ parts.map Listing.ids,
      Readable ((SortKey.property property).read session.store) (session.store.key property) run := by
    intro run mem
    refine Store.readable_of_exists fun id here => ?_
    have among := (perm_of_permutedParts permuted).subset (List.mem_flatten.mpr ⟨run, mem, here⟩)
    obtain ⟨name, -, inPart⟩ := List.mem_flatMap.mp among
    exact existing.exists_of_mem_part inPart
  rw [items_of_whole (whole_of_permutedParts permuted), Sorting.mergeRanked_eq readable] at faulted
  cases faulted

/-- Sorting a hierarchy that has an end does not descend without one. -/
theorem faultsWithin_sortTypesWithin (existing : session.Existing source) {levels : Nat}
    (within : session.metadata.Within levels type) (registered : session.Registered type) :
    session.FaultsWithin (session.store.SortFault property)
      (session.engine.sortTypesWithin levels type property source ascending) := by
  induction levels generalizing type with
  | zero => exact within.elim
  | succ levels ih =>
    refine faultsWithin_bind (faultsWithin_sortType (registered type .refl) existing)
      (yields_sortType_permuted type) fun own permuted => ?_
    split
    case h_1 => exact faultsWithin_pure own
    case h_2 =>
      obtain ⟨below, unfolds⟩ := within.exists_unfolds
      refine faultsWithin_bind (faultsWithin_mapM _ (fun subtype direct => ?_) fun subtype _ =>
          (yields_sortTypesWithin levels subtype property source ascending).done)
        (yields_sortTypesWithin_blocks (fun name _ => yields_sortType_permuted name)
          (fun _ permuted => yields_mergeParts_permuted permuted) unfolds (.refl below) levels) ?_
      · exact ih (within subtype direct) fun name derives => registered name (.head direct derives)
      · rintro parts ⟨blocks, -, permuted'⟩
        exact faultsWithin_mergeParts existing (.cons permuted permuted')

theorem faultsWithin_sortTypes (existing : session.Existing source)
    (acyclic : session.metadata.AcyclicBelow type) (registered : session.Registered type) :
    session.FaultsWithin (session.store.SortFault property)
      (session.engine.sortTypes type property source ascending) :=
  faultsWithin_sortTypesWithin existing acyclic.within registered

end Session

end ExtentQuery
