import ExtentQuery.Proofs.Backend.Growth
import ExtentQuery.Proofs.Evaluation.Exactness
import ExtentQuery.Proofs.Sorting.Interleaving

/-!
# What the backend hands out in a run

A run starts with an empty store.  The store is changed, the backend is asked for listings, and
the operands of a request are listings that were handed out before, maybe before the last
changes.  A listing that is known to be in the order of identities is merged by that order, so a
single operation that passes this on to a list in another order would spoil later unions.

* `Store.Lists` — a listing that does not fault, all entities of which exist, and which is in the
  order of identities if it is known to be;
* `Request`, `Run` — requests about listings, and runs of changes and requests;
* `Request.yields_perform` — each request hands out such a listing, if its operands are such
  listings and the links of the store lead to entities;
* `Run.lists` — all listings that were handed out in a run are such listings, in the store that
  there is at its end;
* `Run.handed_wellFormed` — moreover, a union of any two of them lists every entity once.

**Keys of a merge.**  A merge reads its keys from the store in whatever way
(`Backend.Memory.mergeBy`); the keys of `SortKey` are some of them.
-/

namespace ExtentQuery

open Effect

/-- Whether a listing does not fault, all of its entities exist in a store, and it is in the order
of identities if it is known to be. -/
structure Store.Lists (store : Store) (listing : Listing) : Prop where
  whole : listing.failure = none
  exists_of_mem : ∀ id ∈ listing.ids, store.Exists id
  truthful : listing.inIdOrder = true → Ascending listing.ids

theorem Store.Lists.mono {store store' : Store} {listing : Listing} (lists : store.Lists listing)
    (grows : store.Grows store') : store'.Lists listing :=
  ⟨lists.whole, fun id mem => grows id (lists.exists_of_mem id mem), lists.truthful⟩

/-! ### Requests -/

/-- Merges listings by keys that are read from the store in a given way. -/
def Backend.Memory.mergeBy (listings : List Listing) (key : Store → Sorting.KeyReader)
    (ascending : Bool) : Effect Listing := do
  countCall .merge
  listings.forM Listing.start
  let merged ← reading fun store =>
    Sorting.mergeRanked (key store) ascending (listings.map Listing.items)
  snapshot merged false

theorem Backend.Memory.merge_eq_mergeBy (listings : List Listing) (key : SortKey)
    (ascending : Bool) :
    merge listings key ascending = mergeBy listings (fun store => key.read store) ascending :=
  rfl

/-- What a backend is asked for, about listings that it handed out. -/
inductive Request where
  | all (type : String)
  | equal (type property : String) (value : Value)
  | startsWith (type property start : String)
  | between (type property : String) (low high : Value)
  | hasProperty (type property : String)
  | hasBlob (type blob : String)
  | linkedTo (type link : String) (target : EntityId)
  | hasLink (type link : String)
  | linkTargets (id : EntityId) (link : String)
  | searchLinks (source targets : Listing) (link : String)
  | combine (operation : SetOperation) (left right : Listing)
  | sortType (type property : String) (source : Option Listing) (ascending : Bool)
  | orderByTargets (request : TargetOrder)
  | merge (listings : List Listing) (key : Store → Sorting.KeyReader) (ascending : Bool)

namespace Request

/-- The listings that a request is about. -/
def operands : Request → List Listing
  | searchLinks source targets _ => [source, targets]
  | combine _ left right => [left, right]
  | sortType _ _ source _ => source.toList
  | orderByTargets request => [request.source, request.targets]
  | merge listings _ _ => listings
  | _ => []

/-- Asks the backend of the store. -/
def perform : Request → Effect (Option Listing)
  | all type => return some (← Backend.memory.all type)
  | equal type property value => return some (← Backend.memory.equal type property value)
  | startsWith type property start =>
    return some (← Backend.memory.startsWith type property start)
  | between type property low high =>
    return some (← Backend.memory.between type property low high)
  | hasProperty type property => return some (← Backend.memory.hasProperty type property)
  | hasBlob type blob => return some (← Backend.memory.hasBlob type blob)
  | linkedTo type link target => return some (← Backend.memory.linkedTo type link target)
  | hasLink type link => return some (← Backend.memory.hasLink type link)
  | linkTargets id link => return some (← Backend.memory.linkTargets id link)
  | searchLinks source targets link => Backend.memory.searchLinks source targets link
  | combine operation left right => return some (← Backend.memory.combine operation left right)
  | sortType type property source ascending =>
    return some (← Backend.memory.sortType type property source ascending)
  | orderByTargets request => Backend.memory.orderByTargets request
  | merge listings key ascending => return some (← Backend.Memory.mergeBy listings key ascending)

end Request

/-! ### What each request hands out -/

theorem Sorting.mem_of_sortRanked {positions : Nat → Comparison Nat → Option (List Nat)}
    {reader : KeyReader} {ascending : Bool} {ids sorted : List EntityId} {id : EntityId}
    (found : sortRanked positions reader ascending ids = .ok sorted) (mem : id ∈ sorted) :
    id ∈ ids := by
  obtain ⟨order, -, rfl⟩ := exists_order_of_sortRanked (reads_readKey reader) found
  obtain ⟨i, -, here⟩ := List.mem_filterMap.mp mem
  exact List.mem_of_getElem? here

namespace Session

variable {session : Session} {source targets left right : Listing}

theorem yields_snapshot_lists {ids : List EntityId} {inIdOrder : Bool}
    (existing : ∀ id ∈ ids, session.store.Exists id)
    (truthful : inIdOrder = true → Ascending ids) :
    session.Yields (Backend.Memory.snapshot ids inIdOrder) session.store.Lists := by
  refine ((yields_snapshot ids inIdOrder).and (yields_snapshot_whole ids inIdOrder)).mono ?_
  rintro listing ⟨⟨rfl, order⟩, whole, -⟩
  exact ⟨whole, existing, fun known => truthful (order.symm.trans known)⟩

/-- What is handed out on a request, if its answer is a listing. -/
theorem yields_handing {x : Effect Listing} (lists : session.Yields x session.store.Lists) :
    session.Yields (do return some (← x)) fun found =>
      ∀ listing ∈ found, session.store.Lists listing := by
  refine yields_bind lists fun made here => yields_pure ?_
  rintro listing ⟨⟩
  exact here

theorem yields_lookUp_lists (call : Call) (type : String) (keep : Record → Bool) :
    session.Yields (Backend.Memory.lookUp call type keep) session.store.Lists := by
  refine ((yields_lookUp call type keep).and (yields_lookUp_whole call type keep)).mono ?_
  rintro listing ⟨selected, whole, -⟩
  refine ⟨whole, fun id mem => ?_, fun _ => selected.ordered.2⟩
  obtain ⟨record, has, -⟩ := (selected.mem_iff id).mp mem
  exact Option.isSome_iff_exists.mpr ⟨record, has.2⟩

theorem yields_linkTargets_lists (closed : session.store.Closed) (id : EntityId) (link : String) :
    session.Yields (Backend.Memory.linkTargets id link) session.store.Lists := by
  refine yields_bind (yields_reading _) fun targets found => ?_
  obtain ⟨record, here, rfl⟩ := Store.links_eq_ok.mp found
  exact yields_snapshot_lists (closed here link) nofun

theorem yields_searchLinks_lists (lists : session.store.Lists source) (targets : Listing)
    (link : String) :
    session.Yields (Backend.Memory.searchLinks source targets link) fun found =>
      ∀ listing ∈ found, session.store.Lists listing := by
  refine ((yields_searchLinks source targets link).and
    (yields_searchLinks_whole source targets link)).mono ?_
  rintro found ⟨kept, whole⟩ listing mem
  obtain ⟨order, ids⟩ := kept listing mem
  refine ⟨whole listing mem, fun id here => ?_, fun known => ?_⟩
  · rw [ids] at here
    exact lists.exists_of_mem id (List.mem_filter.mp here).1
  · rw [ids]
    exact (lists.truthful (order.symm.trans known)).filter _

/-- A union merges two listings that are in the order of identities, and otherwise lists every
entity where it occurs first. -/
theorem yields_union_ids (left right : Listing) :
    session.Yields (Backend.Memory.combine .union left right) fun listing =>
      listing.inIdOrder = (left.inIdOrder && right.inIdOrder) ∧
        listing.ids = if left.inIdOrder && right.inIdOrder
          then SetOperation.unionById left.ids right.ids
          else SetOperation.union.apply left.ids right.ids := by
  refine yields_bind_done (yields_countCall _) fun _ => ?_
  refine yields_bind (yields_listing_collect left) ?_
  rintro l rfl
  refine yields_bind (yields_listing_collect right) ?_
  rintro r rfl
  cases left.inIdOrder && right.inIdOrder with
  | true => exact (yields_snapshot _ _).mono fun _ made => made.symm
  | false => exact (yields_snapshot _ _).mono fun _ made => made.symm

/-- The union of two listings lists every entity once. -/
theorem yields_union_nodup (ordered : left.inIdOrder = true → Ascending left.ids)
    (ordered' : right.inIdOrder = true → Ascending right.ids) :
    session.Yields (Backend.Memory.combine .union left right) fun listing =>
      listing.ids.Nodup := by
  refine (yields_union_ids left right).mono ?_
  rintro listing ⟨-, ids⟩
  rw [ids]
  split
  case isTrue both =>
    obtain ⟨known, known'⟩ := (Bool.and_eq_true _ _).mp both
    exact (SetOperation.ascending_unionById (ordered known) (ordered' known')).nodup
  case isFalse => exact nodup_eraseDups _

/-- What comes of a set operation is in the order of identities if it is known to be. -/
theorem yields_combine_truthful (operation : SetOperation)
    (ordered : left.inIdOrder = true → Ascending left.ids)
    (ordered' : right.inIdOrder = true → Ascending right.ids) :
    session.Yields (Backend.Memory.combine operation left right) fun listing =>
      listing.inIdOrder = true → Ascending listing.ids := by
  cases operation with
  | union =>
    refine (yields_union_ids left right).mono ?_
    rintro listing ⟨order, ids⟩ known
    -- only a merge is known to be in order, and both of its operands are then
    obtain ⟨both, both'⟩ := (Bool.and_eq_true _ _).mp (order.symm.trans known)
    rw [ids, if_pos (order.symm.trans known)]
    exact SetOperation.ascending_unionById (ordered both) (ordered' both')
  | concat =>
    refine yields_bind_done (yields_countCall _) fun _ => ?_
    refine yields_bind_done (yields_listing_collect left).done fun l => ?_
    refine yields_bind_done (yields_listing_collect right).done fun r => ?_
    exact (yields_snapshot _ _).mono fun _ made known => nomatch known.symm.trans made.2
  | inter | diff =>
    refine yields_bind_done (yields_countCall _) fun _ => ?_
    refine yields_bind_done (yields_listing_collect right).done fun r => ?_
    refine yields_bind (yields_listing_collect left) ?_
    rintro l rfl
    refine (yields_snapshot _ _).mono ?_
    rintro listing ⟨ids, order⟩ known
    rw [ids]
    exact (ordered (order.symm.trans known)).filter _

theorem yields_combine_lists (operation : SetOperation) (lists : session.store.Lists left)
    (lists' : session.store.Lists right) :
    session.Yields (Backend.Memory.combine operation left right) session.store.Lists := by
  refine ((yields_memory_combine operation left right).and
    ((yields_memory_combine_whole operation left right).and
      (yields_combine_truthful operation lists.truthful lists'.truthful))).mono ?_
  rintro listing ⟨combines, whole, truthful⟩
  refine ⟨whole, fun id mem => ?_, truthful⟩
  rcases SetOperation.or_of_truth ((combines.mem_iff id).mp mem) with here | here
  · exact lists.exists_of_mem id (List.contains_iff_mem.mp here)
  · exact lists'.exists_of_mem id (List.contains_iff_mem.mp here)

theorem yields_sortType_lists (type property : String) {source : Option Listing} (ascending : Bool)
    (lists : ∀ listing ∈ source, session.store.Lists listing) :
    session.Yields (Backend.Memory.sortType type property source ascending)
      session.store.Lists := by
  have existing : session.Existing source := fun listing mem =>
    ⟨(lists listing mem).whole, (lists listing mem).exists_of_mem⟩
  refine yields_bind_done (yields_countCall _) fun _ => ?_
  refine yields_bind_done (yields_reading _).done fun _ => ?_
  refine yields_bind (yields_extentOf_part type source) ?_
  rintro ids rfl
  refine yields_bind (yields_reading _) fun sorted found => ?_
  exact yields_snapshot_lists
    (fun id mem => existing.exists_of_mem_part (Sorting.mem_of_sortRanked found mem)) nofun

theorem yields_orderByTargets_lists {request : TargetOrder}
    (lists : session.store.Lists request.source) :
    session.Yields (Backend.Memory.orderByTargets request) fun found =>
      ∀ listing ∈ found, session.store.Lists listing := by
  refine (yields_orderByTargets request).mono fun found orders listing handed => ?_
  obtain ⟨whole, unordered, perm⟩ := orders listing handed
  exact ⟨whole, fun id mem => lists.exists_of_mem id (perm.subset mem),
    fun known => absurd (unordered.symm.trans known) (by decide)⟩

theorem yields_mergeBy_lists {listings : List Listing} (key : Store → Sorting.KeyReader)
    (ascending : Bool) (lists : ∀ listing ∈ listings, session.store.Lists listing) :
    session.Yields (Backend.Memory.mergeBy listings key ascending) session.store.Lists := by
  refine yields_bind_done (yields_countCall _) fun _ => ?_
  refine yields_bind_done (yields_forM listings fun part _ => yields_start part) fun _ => ?_
  refine yields_bind (yields_reading _) fun merged found => ?_
  rw [items_of_whole fun listing mem => (lists listing mem).whole] at found
  refine yields_snapshot_lists (fun id mem => ?_) nofun
  obtain ⟨run, inside, here⟩ := List.mem_flatten.mp
    ((Sorting.perm_of_mergeRanked found).mem_iff.mp mem)
  obtain ⟨listing, known, rfl⟩ := List.mem_map.mp inside
  exact (lists listing known).exists_of_mem id here

end Session

namespace Request

open Session

/-- **Each request** hands out a listing all entities of which exist and that is in the order of
identities if it is known to be, if the operands are such listings. -/
theorem yields_perform {session : Session} (closed : session.store.Closed) (request : Request)
    (known : ∀ listing ∈ request.operands, session.store.Lists listing) :
    session.Yields request.perform fun found =>
      ∀ listing ∈ found, session.store.Lists listing := by
  cases request with
  | all | equal | startsWith | between | hasProperty | hasBlob | linkedTo | hasLink =>
    exact yields_handing (yields_lookUp_lists _ _ _)
  | linkTargets id link => exact yields_handing (yields_linkTargets_lists closed id link)
  | searchLinks source targets link =>
    exact yields_searchLinks_lists (known source List.mem_cons_self) targets link
  | combine operation left right =>
    exact yields_handing (yields_combine_lists operation (known left List.mem_cons_self)
      (known right (.tail _ List.mem_cons_self)))
  | sortType type property source ascending =>
    exact yields_handing (yields_sortType_lists type property ascending fun listing mem =>
      known listing (Option.mem_toList.mpr mem))
  | orderByTargets request =>
    exact yields_orderByTargets_lists (known request.source List.mem_cons_self)
  | merge listings key ascending =>
    exact yields_handing (yields_mergeBy_lists key ascending known)

/-- No request changes the store, whether it is answered or faults. -/
theorem quiet_perform (request : Request) : Quiet request.perform := by
  have handing : ∀ {x : Effect Listing}, Quiet x → Quiet (do return some (← x)) :=
    fun quiet => quiet.bind fun _ => quiet_pure _
  cases request with
  | all | equal | startsWith | between | hasProperty | hasBlob | linkedTo | hasLink =>
    exact handing (Backend.Memory.quiet_lookUp _ _ _)
  | linkTargets id link => exact handing (Backend.Memory.quiet_linkTargets id link)
  | searchLinks source targets link => exact Backend.Memory.quiet_searchLinks source targets link
  | combine operation left right =>
    exact handing (Backend.Memory.quiet_combine operation left right)
  | sortType type property source ascending =>
    exact handing (Backend.Memory.quiet_sortType type property source ascending)
  | orderByTargets request => exact Backend.Memory.quiet_orderByTargets request
  | merge listings key ascending =>
    exact handing ((quiet_countCall _).bind fun _ =>
      (quiet_forM Listing.quiet_start listings).bind fun _ =>
        (quiet_reading _).bind fun merged => Backend.Memory.quiet_snapshot merged false)

end Request

/-! ### Runs -/

/-- The states that come about when a store that was empty is changed and its backend is asked, and
the listings that were handed out on the way. -/
inductive Run : State → List Listing → Prop where
  | start (cache : Cache.QueryCache) : Run (.initial .empty cache) []
  /-- A change that succeeds or faults. -/
  | changed {s : State} {handed : List Listing} (change : Change) (before : Run s handed) :
      Run (final change.perform s) handed
  | answered {s s' : State} {handed : List Listing} {listing : Listing} (request : Request)
      (before : Run s handed) (known : ∀ operand ∈ request.operands, operand ∈ handed)
      (ran : request.perform s = .ok (some listing) s') : Run s' (listing :: handed)
  /-- A request that faults, or whose answer is dropped. -/
  | asked {s : State} {handed : List Listing} (request : Request) (before : Run s handed)
      (known : ∀ operand ∈ request.operands, operand ∈ handed) :
      Run (final request.perform s) handed

/-- A session in a given state, without subtypes; the backend knows nothing about types. -/
def Session.within (s : State) : Session where
  metadata :=
    { subtypeNames := []
      subtypes := fun _ => []
      association := fun _ _ => none
      storage := fun _ _ => .primitive }
  settings := .default
  start := s

namespace Run

variable {s s' : State} {handed : List Listing}

theorem closed (run : Run s handed) : s.store.Closed := by
  induction run with
  | start cache => exact Store.closed_empty
  | changed change _ ih => exact change.closed ih
  | answered request _ _ ran ih =>
    rw [← final_of_ok ran, (request.quiet_perform _).store]
    exact ih
  | asked request _ _ ih =>
    rw [(request.quiet_perform _).store]
    exact ih

/-- **The listings that were handed out in a run** do not fault, all of their entities exist, and
they are in the order of identities if they are known to be. -/
theorem lists (run : Run s handed) : ∀ listing ∈ handed, s.store.Lists listing := by
  induction run with
  | start cache => exact nofun
  | changed change _ ih => exact fun listing mem => (ih listing mem).mono (change.grows _)
  | @answered s s' handed listing request before known ran ih =>
    -- the operands were handed out before, so they are in order in the store that answers
    have closed : (Session.within s).store.Closed := before.closed
    have here : s.store.Lists listing := (request.yields_perform closed
      (fun operand mem => ih operand (known operand mem)) Session.reaches_start ran).2 _ rfl
    rw [← final_of_ok ran, (request.quiet_perform _).store]
    exact List.forall_mem_cons.mpr ⟨here, ih⟩
  | asked request _ _ ih =>
    rw [(request.quiet_perform _).store]
    exact ih

/-- A union of listings that were handed out does not fault, and lists every entity of theirs
once. -/
theorem exists_union {left right : Listing} (lists : s.store.Lists left)
    (lists' : s.store.Lists right) :
    ∃ union s', Backend.memory.combine .union left right s = .ok union s' ∧
      ∀ id, union.ids.count id = if id ∈ left.ids ∨ id ∈ right.ids then 1 else 0 := by
  have start : (Session.within s).Reaches s := Session.reaches_start
  cases ran : Backend.memory.combine .union left right s with
  | error fault s' =>
    have never : (Session.within s).FaultsWithin (fun _ => False)
        (Backend.memory.combine .union left right) :=
      Session.faultsWithin_memory_combine .union lists.whole lists'.whole
    exact (never start ran).elim
  | ok union s' =>
    have nodup := (Session.yields_union_nodup lists.truthful lists'.truthful start ran).2
    have combines := (Session.yields_memory_combine .union left right start ran).2
    refine ⟨union, s', rfl, fun id => ?_⟩
    rw [nodup.count]
    refine if_congr ?_ rfl rfl
    rw [← Rows.ids_native union, combines.mem_iff, SetOperation.truth, Bool.or_eq_true,
      List.contains_iff_mem, List.contains_iff_mem]
    rfl

/-- **What is handed out in a run is well formed.**  Every entity of every listing exists, and a
listing that is known to be in the order of identities strictly follows it, however the store was
changed since and whatever the listings were made of.  The union of any two of the listings lists
every entity of either one once, and no other one. -/
theorem handed_wellFormed (run : Run s handed) :
    (∀ listing ∈ handed,
      (∀ id ∈ listing.ids, (s.store.record? id).isSome = true) ∧
      (listing.inIdOrder = true → listing.ids.Pairwise EntityId.Precedes)) ∧
    ∀ left ∈ handed, ∀ right ∈ handed, ∃ union s',
      Backend.memory.combine .union left right s = .ok union s' ∧
      ∀ id, union.ids.count id = if id ∈ left.ids ∨ id ∈ right.ids then 1 else 0 := by
  refine ⟨fun listing mem => ?_, fun left mem right mem' => ?_⟩
  · have lists := run.lists listing mem
    exact ⟨lists.exists_of_mem, lists.truthful⟩
  · exact exists_union (run.lists left mem) (run.lists right mem')

/-- Two animals are added to an empty store, and one of them is linked to the other one twice.  A
link to an animal that does not exist is not added. -/
def linkedTwice : State :=
  [Change.create "animal", .create "animal", .addLink ⟨0, 1⟩ "likes" ⟨0, 0⟩,
    .addLink ⟨0, 1⟩ "likes" ⟨0, 0⟩, .addLink ⟨0, 1⟩ "likes" ⟨0, 2⟩].foldl
    (fun s change => final change.perform s) (.initial .empty (.create 16 false 1))

/-- The targets of the link repeat an animal, and a union with all animals lists it once. -/
theorem handed_wellFormed_linkedTwice :
    ∃ s targets extent, Run s [targets, extent] ∧
      targets.ids = [⟨0, 0⟩, ⟨0, 0⟩] ∧ targets.inIdOrder = false ∧
      (extent.inIdOrder = true ∧ extent.ids.Pairwise EntityId.Precedes) ∧
      ∃ union s', Backend.memory.combine .union targets extent s = .ok union s' ∧
        union.ids.count ⟨0, 0⟩ = 1 ∧ union.ids.count ⟨0, 1⟩ = 1 ∧ union.ids.count ⟨0, 2⟩ = 0 := by
  have changed : Run linkedTwice [] :=
    .changed _ (.changed _ (.changed _ (.changed _ (.changed _ (.start _)))))
  have first : EStateM.run' (Request.all "animal").perform linkedTwice
      = some (some ⟨0, .snapshot true, [⟨0, 0⟩, ⟨0, 1⟩], none, 2⟩) := by decide +kernel
  have second : EStateM.run' (do
        let _ ← (Request.all "animal").perform
        (Request.linkTargets ⟨0, 1⟩ "likes").perform) linkedTwice
      = some (some ⟨1, .snapshot false, [⟨0, 0⟩, ⟨0, 0⟩], none, 2⟩) := by decide +kernel
  obtain ⟨s', both⟩ := exists_of_run' second
  obtain ⟨found, s, ran, ran'⟩ := exists_of_bind both
  rw [EStateM.run', EStateM.run, ran] at first
  cases first
  have run : Run s' _ := .answered (.linkTargets ⟨0, 1⟩ "likes")
    (.answered (.all "animal") changed nofun ran) nofun ran'
  obtain ⟨listed, unites⟩ := handed_wellFormed run
  obtain ⟨union, s'', united, counts⟩ := unites _ List.mem_cons_self _ (.tail _ List.mem_cons_self)
  refine ⟨s', _, _, run, rfl, rfl, ⟨rfl, (listed _ (.tail _ List.mem_cons_self)).2 rfl⟩, union, s'',
    united, ?_, ?_, ?_⟩
  · rw [counts]
    decide
  · rw [counts]
    decide
  · rw [counts]
    decide

end Run

end ExtentQuery
