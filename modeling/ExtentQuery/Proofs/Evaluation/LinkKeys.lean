import ExtentQuery.Proofs.Evaluation.Faults

/-!
# Keys behind a link

An entity is sorted by what is behind a link in one of two ways.  In memory, its key is the value
that comes first among those of its targets.  The backend does not read this key: it ranks the
entity by the first place that one of its targets has in a sorted list of targets.

* `Sorting.SortedByKey` — a list sorted by a key that may be absent;
* `Value.isLE_first` — the value that comes first is not greater than any other;
* `Store.linkKey`, `Store.reads_linkKey` — the key behind a link, and what reads it;
* `Backend.Memory.firstRank_eq_some_iff` — the rank of an entity;
* `Store.SortedTargets` — sorted targets, in which every target that has a value has a place;
* `Store.SortedTargets.isLE_linkKey_of_rank` — the order of the ranks is the order of the keys;
* `Store.SortedByLink`, `Store.SortedTargets.sortedByLink_arrangeRanked` — entities arranged by
  their ranks are sorted by their keys.

**Why ranks decide.**  Let an entity be ranked no later than another one.  The key of the first is
not greater than the value at its rank, because one of its targets stands there.  The key of the
second is the value of one of its targets, which stands at its rank or behind it, and so is not less
than the value at the rank of the first.  A key and the value at the rank need not be the same value:
values that compare as equal still have different places.
-/

namespace ExtentQuery

open Sorting (Comparison Keeps Ordered Readable Reads byKey)

/-! ### Sorting by a key that may be absent -/

namespace Sorting

variable {α : Type} {ascending : Bool} {key : α → Option Value} {source sorted : List α}

/-- Whether a list is a source sorted by a key in a direction: the items without a key are one
block and stay as they come, behind the others or, when descending, before them. -/
structure SortedByKey (ascending : Bool) (key : α → Option Value) (source sorted : List α) :
    Prop where
  perm : sorted.Perm source
  ordered : Ordered (byKey ascending key) sorted
  block : ∃ keyed, (∀ x ∈ keyed, (key x).isSome = true) ∧
    sorted = if ascending then keyed ++ source.filter (fun x => (key x).isNone)
      else source.filter (fun x => (key x).isNone) ++ keyed

/-- A list in which what satisfies a condition comes first. -/
theorem filter_append_filter_not {p : α → Bool} {xs : List α}
    (first : xs.Pairwise fun x y => p y = true → p x = true) :
    xs.filter p ++ xs.filter (fun x => !p x) = xs := by
  induction first with
  | nil => rfl
  | @cons x xs before _ ih =>
    cases holds : p x with
    | true =>
      rw [List.filter_cons_of_pos holds, List.filter_cons_of_neg (by rw [holds]; decide)]
      exact congrArg (x :: ·) ih
    | false =>
      have fails : ∀ y ∈ xs, p y = false := fun y mem => Bool.eq_false_iff.mpr fun later => by
        rw [before y mem later] at holds
        cases holds
      have none : xs.filter p = [] :=
        List.filter_eq_nil_iff.mpr fun y mem => Bool.eq_false_iff.mp (fails y mem)
      have all : xs.filter (fun y => !p y) = xs :=
        List.filter_eq_self.mpr fun y mem => (congrArg not (fails y mem)).trans rfl
      rw [List.filter_cons_of_neg (by rw [holds]; decide),
        List.filter_cons_of_pos (by rw [holds]; rfl), none, all, List.nil_append]

/-- An absent key is last when ascending and first when descending. -/
theorem Ordered.blocks (ordered : Ordered (byKey ascending key) sorted) :
    sorted = if ascending then
        sorted.filter (fun x => (key x).isSome) ++ sorted.filter (fun x => (key x).isNone)
      else sorted.filter (fun x => (key x).isNone) ++ sorted.filter (fun x => (key x).isSome) := by
  cases ascending with
  | true =>
    have first : sorted.Pairwise fun x y => (key y).isSome = true → (key x).isSome = true := by
      refine ordered.imp fun {x y} notGreater keyed => ?_
      rw [byKey] at notGreater
      cases at_x : key x with
      | some v => rfl
      | none =>
        obtain ⟨w, at_y⟩ := Option.isSome_iff_exists.mp keyed
        rw [at_x, at_y] at notGreater
        cases notGreater
    have blocks := filter_append_filter_not first
    simp only [Option.not_isSome] at blocks
    exact blocks.symm
  | false =>
    have first : sorted.Pairwise fun x y => (key y).isNone = true → (key x).isNone = true := by
      refine ordered.imp fun {x y} notGreater keyless => ?_
      rw [byKey] at notGreater
      cases at_x : key x with
      | none => rfl
      | some v =>
        rw [at_x, Option.isNone_iff_eq_none.mp keyless] at notGreater
        cases notGreater
    have blocks := filter_append_filter_not first
    simp only [Option.not_isNone] at blocks
    exact blocks.symm

/-- What is sorted stably by a key. -/
theorem sortedByKey_of_keeps (perm : sorted.Perm source)
    (ordered : Ordered (byKey ascending key) sorted)
    (keeps : Keeps (fun x y => byKey ascending key x y = .eq) source sorted) :
    SortedByKey ascending key source sorted where
  perm := perm
  ordered := ordered
  block := by
    have keyless : sorted.filter (fun x => (key x).isNone) = source.filter fun x => (key x).isNone := by
      refine keeps _ fun x y none none' => ?_
      show Value.compareKeys ascending (key x) (key y) = .eq
      rw [Option.isNone_iff_eq_none.mp none, Option.isNone_iff_eq_none.mp none']
      cases ascending <;> rfl
    refine ⟨sorted.filter fun x => (key x).isSome, fun x mem => (List.mem_filter.mp mem).2, ?_⟩
    rw [← keyless]
    exact ordered.blocks

/-- Items in the order of their keys, and a block of those without a key. -/
theorem sortedByKey_of_block {keyed : List α}
    (perm : keyed.Perm (source.filter fun x => (key x).isSome))
    (ordered : Ordered (byKey ascending key) keyed) :
    SortedByKey ascending key source
      (if ascending then keyed ++ source.filter (fun x => (key x).isNone)
        else source.filter (fun x => (key x).isNone) ++ keyed) := by
  have all : (keyed ++ source.filter fun x => (key x).isNone).Perm source := by
    have split := List.filter_append_perm (fun x => (key x).isSome) source
    simp only [Option.not_isSome] at split
    exact (perm.append_right _).trans split
  have absent : ∀ x ∈ source.filter (fun x => (key x).isNone), key x = none := fun x mem =>
    Option.isNone_iff_eq_none.mp (List.mem_filter.mp mem).2
  have ties : Ordered (byKey ascending key) (source.filter fun x => (key x).isNone) := by
    refine List.pairwise_of_forall_mem_list fun x mem y mem' => ?_
    rw [byKey, absent x mem, absent y mem']
    cases ascending <;> rfl
  refine ⟨?_, ?_, keyed, fun x mem => (List.mem_filter.mp (perm.subset mem)).2, rfl⟩
  · cases ascending with
    | true => exact all
    | false => exact List.perm_append_comm.trans all
  · cases ascending with
    | true =>
      refine List.pairwise_append.mpr ⟨ordered, ties, fun x _ y mem => ?_⟩
      rw [byKey, absent y mem]
      cases key x <;> rfl
    | false =>
      refine List.pairwise_append.mpr ⟨ties, ordered, fun x mem y _ => ?_⟩
      rw [byKey, absent x mem]
      cases key y <;> rfl

end Sorting

/-! ### The value that comes first -/

namespace Value

variable {ascending : Bool} {values : List Value} {best : Option Value} {v w : Value}

theorem compareKeys_self (ascending : Bool) (key : Option Value) :
    compareKeys ascending key key = .eq := by
  have same : compareKeys ascending key key = (compareKeys ascending key key).swap :=
    compareKeys_eq_swap ascending key key
  cases compared : compareKeys ascending key key with
  | eq => rfl
  | lt | gt =>
    rw [compared] at same
    cases same

theorem precedes_iff : v.precedes ascending w = true ↔ compareKeys ascending (some v) (some w) = .lt := by
  cases ascending with
  | true => exact beq_iff_eq
  | false =>
    refine beq_iff_eq.trans ?_
    show v.sortCompare w = .gt ↔ (v.sortCompare w).swap = .lt
    cases v.sortCompare w <;> decide

theorem isLE_compareKeys_self (ascending : Bool) (key : Option Value) :
    (compareKeys ascending key key).isLE = true := by
  rw [compareKeys_self]
  rfl

/-- Of two values, the one that is kept is not greater than the other one. -/
theorem isLE_kept (ascending : Bool) (best v : Value) :
    ∃ kept, (if v.precedes ascending best then v else best) = kept ∧ (kept = best ∨ kept = v) ∧
      (compareKeys ascending (some kept) (some best)).isLE = true ∧
      (compareKeys ascending (some kept) (some v)).isLE = true := by
  by_cases precedes : v.precedes ascending best = true
  · refine ⟨v, if_pos precedes, .inr rfl, ?_, isLE_compareKeys_self _ _⟩
    rw [precedes_iff.mp precedes]
    rfl
  · refine ⟨best, if_neg precedes, .inl rfl, isLE_compareKeys_self _ _, ?_⟩
    rw [precedes_iff] at precedes
    rw [compareKeys_eq_swap]
    cases compared : compareKeys ascending (some v) (some best) with
    | lt => exact absurd compared precedes
    | eq | gt => rfl

theorem exists_first_some (ascending : Bool) (best : Value) (values : List Value) :
    ∃ v, first ascending (some best) values = some v := by
  induction values generalizing best with
  | nil => exact ⟨best, rfl⟩
  | cons u rest ih => exact ih _

theorem first_eq_none_iff : first ascending none values = none ↔ values = [] := by
  cases values with
  | nil => exact iff_of_true rfl rfl
  | cons u rest =>
    obtain ⟨v, found⟩ := exists_first_some ascending u rest
    refine iff_of_false (fun none => ?_) (List.cons_ne_nil u rest)
    exact Option.some_ne_none v (found.symm.trans none)

/-- The value that comes first is one of the values. -/
theorem mem_of_first (found : first ascending best values = some v) : v ∈ best.toList ++ values := by
  induction values generalizing best with
  | nil =>
    cases found
    exact List.mem_singleton_self v
  | cons u rest ih =>
    cases best with
    | none => exact ih found
    | some b =>
      obtain ⟨kept, same, either, -⟩ := isLE_kept ascending b u
      rw [first, same] at found
      rcases List.mem_cons.mp (ih found) with rfl | mem
      · rcases either with rfl | rfl
        · exact List.mem_cons_self
        · exact .tail _ List.mem_cons_self
      · exact .tail _ (.tail _ mem)

/-- The value that comes first is not greater than any of the values. -/
theorem isLE_first {number : Kind} (isNumber : number = .int ∨ number = .float)
    (lacks : ∀ w ∈ best.toList ++ values, w.kind ≠ number)
    (found : first ascending best values = some v) :
    ∀ w ∈ best.toList ++ values, (compareKeys ascending (some v) (some w)).isLE = true := by
  induction values generalizing best with
  | nil =>
    cases found
    intro w mem
    obtain rfl := List.mem_singleton.mp mem
    exact isLE_compareKeys_self _ _
  | cons u rest ih =>
    cases best with
    | none => exact ih lacks found
    | some b =>
      have lacksFirst : v.kind ≠ number := lacks v (mem_of_first found)
      obtain ⟨kept, same, either, belowBest, belowNext⟩ := isLE_kept ascending b u
      rw [first, same] at found
      have lacksKept : kept.kind ≠ number := by
        rcases either with rfl | rfl
        · exact lacks _ List.mem_cons_self
        · exact lacks _ (.tail _ List.mem_cons_self)
      have lacksRest : ∀ w ∈ (some kept).toList ++ rest, w.kind ≠ number := by
        intro w mem
        rcases List.mem_cons.mp mem with rfl | mem
        · exact lacksKept
        · exact lacks w (.tail _ (.tail _ mem))
      have below := ih lacksRest found
      have throughKept : ∀ w : Value, w.kind ≠ number →
          (compareKeys ascending (some kept) (some w)).isLE = true →
            (compareKeys ascending (some v) (some w)).isLE = true := by
        intro w lacksOther
        refine isLE_compareKeys_trans isNumber ?_ ?_ ?_ (below kept List.mem_cons_self) <;>
          rintro _ ⟨⟩ <;> assumption
      intro w mem
      rcases List.mem_cons.mp mem with rfl | mem
      · exact throughKept w (lacks w List.mem_cons_self) belowBest
      · rcases List.mem_cons.mp mem with rfl | mem
        · exact throughKept w (lacks w (.tail _ List.mem_cons_self)) belowNext
        · exact below w (.tail _ mem)

end Value

/-! ### The key behind a link -/

namespace Store

variable {store : Store} {property link : String} {ascending : Bool} {id : EntityId}
  {record : Record}

/-- The value that comes first among those of the targets of an entity. -/
def linkKey (store : Store) (property link : String) (ascending : Bool) (id : EntityId) :
    Option Value :=
  (store.record? id).bind fun record =>
    Value.first ascending none ((record.targets link).filterMap (store.key property))

theorem linkKey_eq (found : store.record? id = some record) :
    store.linkKey property link ascending id
      = Value.first ascending none ((record.targets link).filterMap (store.key property)) := by
  rw [linkKey, found, Option.bind_some]

theorem filterMap_keys (targets : List EntityId) :
    (targets.map (store.key property)).filterMap (fun v => v)
      = targets.filterMap (store.key property) :=
  List.filterMap_map

/-- Reading the key behind a link of an entity all of whose targets exist. -/
theorem read_linkKey (found : store.record? id = some record)
    (existing : ∀ target ∈ record.targets link, store.Exists target) :
    (SortKey.linkedProperty property link ascending).read store id
      = .ok (store.linkKey property link ascending id) := by
  have linked : store.links id link = .ok (record.targets link) := links_eq_ok.mpr ⟨_, found, rfl⟩
  have values : (record.targets link).mapM (store.property · property)
      = .ok ((record.targets link).map (store.key property)) :=
    Sorting.mapM_eq_map (readable_of_exists existing)
  rw [SortKey.read, linked, linkKey_eq found, ← filterMap_keys]
  show ((record.targets link).mapM (store.property · property) >>= _) = _
  rw [values]
  rfl

/-- Whatever reads the key behind a link reads it right. -/
theorem reads_linkKey (store : Store) (property link : String) (ascending : Bool) :
    Reads ((SortKey.linkedProperty property link ascending).read store)
      (store.linkKey property link ascending) := by
  intro id v read
  obtain ⟨targets, linked, read⟩ := exists_of_bind_eq_ok read
  obtain ⟨values, found, read⟩ := exists_of_bind_eq_ok read
  cases read
  obtain ⟨record, here, rfl⟩ := links_eq_ok.mp linked
  have each := Sorting.readable_of_mapM (store.reads_property property) found
  have same := (Sorting.mapM_eq_map each).symm.trans found
  cases same
  rw [linkKey_eq here, filterMap_keys]

theorem linkKey_eq_none_iff (found : store.record? id = some record) :
    store.linkKey property link ascending id = none
      ↔ ∀ target ∈ record.targets link, store.key property target = none := by
  rw [linkKey_eq found, Value.first_eq_none_iff, List.filterMap_eq_nil_iff]

/-- The key behind a link is a value of a target. -/
theorem exists_target_of_linkKey {v : Value} (found : store.record? id = some record)
    (key : store.linkKey property link ascending id = some v) :
    ∃ target ∈ record.targets link, store.key property target = some v := by
  rw [linkKey_eq found] at key
  exact List.mem_filterMap.mp (Value.mem_of_first key)

theorem kind_linkKey_ne {number : Value.Kind}
    (lacks : ∀ id, ∀ v ∈ store.key property id, v.kind ≠ number) (id : EntityId) :
    ∀ v ∈ store.linkKey property link ascending id, v.kind ≠ number := by
  intro v key
  obtain ⟨record, found, -⟩ := Option.bind_eq_some_iff.mp key
  obtain ⟨target, -, value⟩ := exists_target_of_linkKey found key
  exact lacks target v value

theorem unmixed_linkKey (unmixed : store.Unmixed property) (link : String) (ascending : Bool) :
    Value.Unmixed (store.linkKey property link ascending) := by
  obtain ⟨number, isNumber, lacks⟩ := unmixed
  exact ⟨number, isNumber, kind_linkKey_ne lacks⟩

/-- The key behind a link is not greater than the value of any target. -/
theorem isLE_linkKey {v : Value} {target : EntityId} (unmixed : store.Unmixed property)
    (found : store.record? id = some record) (mem : target ∈ record.targets link)
    (value : store.key property target = some v) :
    (Value.compareKeys ascending (store.linkKey property link ascending id) (some v)).isLE = true := by
  obtain ⟨number, isNumber, lacks⟩ := unmixed
  have among : v ∈ (record.targets link).filterMap (store.key property) :=
    List.mem_filterMap.mpr ⟨target, mem, value⟩
  cases key : store.linkKey property link ascending id with
  | none =>
    rw [(linkKey_eq_none_iff found).mp key target mem] at value
    cases value
  | some first =>
    rw [linkKey_eq found] at key
    refine Value.isLE_first isNumber (fun w mem => ?_) key v among
    obtain ⟨other, -, value⟩ := List.mem_filterMap.mp mem
    exact lacks other w value

end Store

/-! ### Ranks -/

namespace Backend.Memory

variable {targets ids : List EntityId} {record : Record} {link : String} {id : EntityId} {n : Nat}

theorem rank?_eq_none_iff : rank? ids id = none ↔ id ∉ ids := by
  rw [rank?, Option.map_eq_none_iff, List.idxOf?_eq_none_iff, List.mem_reverse]

/-- An entity stands at its place. -/
theorem getElem?_of_rank? (found : rank? ids id = some n) : ids[n]? = some id := by
  obtain ⟨fromEnd, here, rfl⟩ := Option.map_eq_some_iff.mp found
  obtain ⟨inside, same, -⟩ := List.idxOf?_eq_some_iff.mp here
  rw [List.length_reverse] at inside
  rw [← List.getElem?_reverse inside]
  exact List.getElem?_eq_some_iff.mpr ⟨_, same⟩

theorem firstRank_eq_none_iff :
    firstRank targets record link = none ↔ ∀ target ∈ record.targets link, target ∉ targets := by
  rw [firstRank, List.min?_eq_none_iff, List.filterMap_eq_nil_iff]
  simp only [rank?_eq_none_iff]

/-- The rank of an entity is the least place of its targets. -/
theorem firstRank_eq_some_iff : firstRank targets record link = some n ↔
    (∃ target ∈ record.targets link, rank? targets target = some n) ∧
      ∀ target ∈ record.targets link, ∀ m ∈ rank? targets target, n ≤ m := by
  rw [firstRank, List.min?_eq_some_iff, List.mem_filterMap]
  refine and_congr_right fun _ => ⟨fun least target mem m place => ?_, fun least m mem => ?_⟩
  · exact least m (List.mem_filterMap.mpr ⟨target, mem, place⟩)
  · obtain ⟨target, mem, place⟩ := List.mem_filterMap.mp mem
    exact least target mem m place

/-- Entities are arranged in the order of their ranks, with a block of those without a rank. -/
theorem exists_arrangeRanked (rank : EntityId → Option Nat) (ascending : Bool)
    (ids : List EntityId) :
    ∃ linked, linked.Perm (ids.filter fun id => (rank id).isSome) ∧
      linked.Pairwise (fun x y => ∃ m n, rank x = some m ∧ rank y = some n ∧ m ≤ n) ∧
      arrangeRanked ascending (ids.map fun id => (id, rank id))
        = if ascending then linked ++ ids.filter (fun id => (rank id).isNone)
          else ids.filter (fun id => (rank id).isNone) ++ linked := by
  let placed := ids.filterMap fun id => (rank id).map fun n => (n, id)
  let sorted := placed.mergeSort fun a b => decide (a.1 ≤ b.1)
  have perm : sorted.Perm placed := List.mergeSort_perm _ _
  have ranked : ∀ entry ∈ sorted, rank entry.2 = some entry.1 := by
    intro entry mem
    obtain ⟨id, -, made⟩ := List.mem_filterMap.mp (perm.subset mem)
    obtain ⟨n, found, rfl⟩ := Option.map_eq_some_iff.mp made
    exact found
  refine ⟨sorted.map (·.2), ?_, ?_, ?_⟩
  · have items : placed.map (·.2) = ids.filter fun id => (rank id).isSome := by
      rw [List.map_filterMap, ← List.filterMap_eq_filter]
      refine List.filterMap_congr fun id _ => ?_
      cases found : rank id <;> simp [Option.guard, found]
    exact items ▸ perm.map _
  · have ordered : sorted.Pairwise fun a b => decide (a.1 ≤ b.1) = true := by
      refine List.pairwise_mergeSort (fun a b c first second => ?_) (fun a b => ?_) placed
      · exact decide_eq_true (Nat.le_trans (of_decide_eq_true first) (of_decide_eq_true second))
      · rw [Bool.or_eq_true, decide_eq_true_iff, decide_eq_true_iff]
        exact Nat.le_total a.1 b.1
    refine List.pairwise_map.mpr (ordered.imp_of_mem fun {a b} mem mem' le => ?_)
    exact ⟨a.1, b.1, ranked a mem, ranked b mem', of_decide_eq_true le⟩
  · have unlinked : ((ids.map fun id => (id, rank id)).filter (·.2.isNone)).map (·.1)
        = ids.filter fun id => (rank id).isNone := by
      rw [List.filter_map, List.map_map]
      exact List.map_id _
    have linked : (ids.map fun id => (id, rank id)).filterMap
        (fun entry => entry.2.map fun n => (n, entry.1)) = placed := List.filterMap_map
    rw [arrangeRanked, unlinked, linked]

end Backend.Memory

/-! ### Sorting by a link -/

namespace Store

variable {store : Store} {property link : String} {ascending : Bool} {targets source : List EntityId}

/-- Whether a list is a source sorted by the values behind a link: every entity has a key that can be
read, and the list is sorted by these keys. -/
structure SortedByLink (store : Store) (property link : String) (ascending : Bool)
    (source sorted : List EntityId) : Prop
    extends Sorting.SortedByKey ascending (store.linkKey property link ascending) source sorted where
  readable : Readable ((SortKey.linkedProperty property link ascending).read store)
    (store.linkKey property link ascending) sorted

/-- Whether a list has the targets of some entities, as far as they have a value, in the order of their
values. -/
structure SortedTargets (store : Store) (property link : String) (ascending : Bool)
    (source targets : List EntityId) : Prop where
  ordered : Ordered (byKey ascending (store.key property)) targets
  mem_iff : ∀ id ∈ source, ∀ record, store.record? id = some record →
    ∀ target ∈ record.targets link, target ∈ targets ↔ (store.key property target).isSome = true

/-- The rank of an entity among sorted targets. -/
def rankBy (store : Store) (link : String) (targets : List EntityId) (id : EntityId) : Option Nat :=
  (store.record? id).bind fun record => Backend.Memory.firstRank targets record link

namespace SortedTargets

variable (sorted : store.SortedTargets property link ascending source targets) {x y id : EntityId}

include sorted

/-- The value at an earlier place is not greater. -/
theorem isLE_of_le (unmixed : store.Unmixed property) {m n : Nat} (at_m : targets[m]? = some x)
    (at_n : targets[n]? = some y) (le : m ≤ n) :
    (byKey ascending (store.key property) x y).isLE = true := by
  have transitive := Sorting.transCmp_byKey unmixed ascending
  obtain ⟨inside, rfl⟩ := List.getElem?_eq_some_iff.mp at_m
  obtain ⟨inside', rfl⟩ := List.getElem?_eq_some_iff.mp at_n
  rcases Nat.lt_or_eq_of_le le with lt | rfl
  · exact List.pairwise_iff_getElem.mp sorted.ordered m n inside inside' lt
  · exact Sorting.isLE_of_eq Std.ReflCmp.compare_self

/-- The entities without a rank are those without a key. -/
theorem isNone_rankBy (mem : id ∈ source) (existing : store.Exists id) :
    (store.rankBy link targets id).isNone = (store.linkKey property link ascending id).isNone := by
  obtain ⟨record, found⟩ := Option.isSome_iff_exists.mp existing
  rw [Bool.eq_iff_iff, Option.isNone_iff_eq_none, Option.isNone_iff_eq_none, rankBy, found,
    Option.bind_some, Backend.Memory.firstRank_eq_none_iff, linkKey_eq_none_iff found]
  refine forall₂_congr fun target here => ?_
  rw [sorted.mem_iff id mem record found target here, Option.not_isSome_iff_eq_none]

/-- At the rank of an entity there is a value that is not less than its key. -/
theorem exists_at_rank (unmixed : store.Unmixed property) (mem : id ∈ source) {n : Nat}
    (rank : store.rankBy link targets id = some n) :
    ∃ target, targets[n]? = some target ∧
      (Value.compareKeys ascending (store.linkKey property link ascending id)
        (store.key property target)).isLE = true := by
  obtain ⟨record, found, first⟩ := Option.bind_eq_some_iff.mp rank
  obtain ⟨⟨target, linked, place⟩, -⟩ := Backend.Memory.firstRank_eq_some_iff.mp first
  have here := Backend.Memory.getElem?_of_rank? place
  obtain ⟨v, value⟩ := Option.isSome_iff_exists.mp
    ((sorted.mem_iff id mem record found target linked).mp (List.mem_of_getElem? here))
  refine ⟨target, here, ?_⟩
  rw [value]
  exact isLE_linkKey unmixed found linked value

/-- The key of an entity is the value at its rank or at a later place. -/
theorem exists_after_rank (mem : id ∈ source) {n : Nat}
    (rank : store.rankBy link targets id = some n) :
    ∃ m target, targets[m]? = some target ∧ n ≤ m ∧
      store.key property target = store.linkKey property link ascending id := by
  obtain ⟨record, found, first⟩ := Option.bind_eq_some_iff.mp rank
  obtain ⟨-, least⟩ := Backend.Memory.firstRank_eq_some_iff.mp first
  have keyed : (store.linkKey property link ascending id).isSome = true := by
    rw [← Option.not_isNone, ← sorted.isNone_rankBy mem (Option.isSome_iff_exists.mpr ⟨_, found⟩), rank]
    rfl
  obtain ⟨v, key⟩ := Option.isSome_iff_exists.mp keyed
  obtain ⟨target, linked, value⟩ := exists_target_of_linkKey found key
  have among : target ∈ targets :=
    (sorted.mem_iff id mem record found target linked).mpr (Option.isSome_iff_exists.mpr ⟨v, value⟩)
  cases place : Backend.Memory.rank? targets target with
  | none => exact absurd among (Backend.Memory.rank?_eq_none_iff.mp place)
  | some m =>
    exact ⟨m, target, Backend.Memory.getElem?_of_rank? place, least target linked m place,
      value.trans key.symm⟩

/-- Entities in the order of their ranks are in the order of their keys. -/
theorem isLE_linkKey_of_rank (unmixed : store.Unmixed property) (mem : x ∈ source)
    (mem' : y ∈ source) {m n : Nat} (rank : store.rankBy link targets x = some m)
    (rank' : store.rankBy link targets y = some n) (le : m ≤ n) :
    (byKey ascending (store.linkKey property link ascending) x y).isLE = true := by
  obtain ⟨target, at_m, below⟩ := sorted.exists_at_rank unmixed mem rank
  obtain ⟨k, other, at_k, after, key⟩ := sorted.exists_after_rank mem' rank'
  have between : (byKey ascending (store.key property) target other).isLE = true :=
    sorted.isLE_of_le unmixed at_m at_k (Nat.le_trans le after)
  rw [byKey, key] at between
  obtain ⟨number, isNumber, lacks⟩ := unmixed
  exact Value.isLE_compareKeys_trans isNumber (kind_linkKey_ne lacks x) (lacks target)
    (kind_linkKey_ne lacks y) below between

/-- Entities that are arranged by their ranks are sorted by their keys. -/
theorem sortedByLink_arrangeRanked (unmixed : store.Unmixed property)
    (existing : ∀ id ∈ source, store.Exists id)
    (readable : Readable ((SortKey.linkedProperty property link ascending).read store)
      (store.linkKey property link ascending) source) :
    store.SortedByLink property link ascending source
      (Backend.Memory.arrangeRanked ascending
        (source.map fun id => (id, store.rankBy link targets id))) := by
  obtain ⟨linked, perm, ordered, arranged⟩ := Backend.Memory.exists_arrangeRanked
    (store.rankBy link targets) ascending source
  have unranked : source.filter (fun id => (store.rankBy link targets id).isNone)
      = source.filter fun id => (store.linkKey property link ascending id).isNone :=
    List.filter_congr fun id mem => sorted.isNone_rankBy mem (existing id mem)
  have ranked : source.filter (fun id => (store.rankBy link targets id).isSome)
      = source.filter fun id => (store.linkKey property link ascending id).isSome := by
    refine List.filter_congr fun id mem => ?_
    rw [← Option.not_isNone, ← Option.not_isNone, sorted.isNone_rankBy mem (existing id mem)]
  have inSource : ∀ id ∈ linked, id ∈ source := fun id mem =>
    (List.mem_filter.mp (perm.subset mem)).1
  rw [ranked] at perm
  rw [arranged, unranked]
  have inOrder : Ordered (byKey ascending (store.linkKey property link ascending)) linked := by
    refine ordered.imp_of_mem fun {x y} mem mem' related => ?_
    obtain ⟨m, n, rank, rank', le⟩ := related
    exact sorted.isLE_linkKey_of_rank unmixed (inSource x mem) (inSource y mem') rank rank' le
  have sortedByKey := Sorting.sortedByKey_of_block perm inOrder
  exact ⟨sortedByKey, fun id mem => readable id (sortedByKey.perm.subset mem)⟩

end SortedTargets

end Store

end ExtentQuery
