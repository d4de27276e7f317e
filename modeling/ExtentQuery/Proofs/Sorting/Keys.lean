import ExtentQuery.Proofs.Sorting.Runs
import ExtentQuery.Proofs.Sorting.StableSort
import ExtentQuery.Sorting.RankedMerge
import Mathlib.Data.Nat.Basic

/-!
# Sorting and merging entities by their keys

Entities are sorted and merged by keys that are read from a store.  If the keys do not mix
integers and floating-point numbers, they are compared transitively, and what is known of
sorting and merging applies.

* `Value.Unmixed`, `transCmp_byKey` — unmixed keys, and their comparison in a direction;
* `sortRanked_eq`, `exists_order_of_sortRanked` — sorting entities by a key is sorting their
  positions;
* `mergeRanked_eq`, `eq_mergeRuns_of_mergeRanked` — merging listings of entities by a key is
  merging their runs.

**Numbers of two kinds.**  An integer is rounded before it is compared with a floating-point
number, so a comparison that meets both need not be transitive.  Values of other different
kinds are compared by the rank of their kinds.
-/

namespace ExtentQuery

/-! ### Unmixed keys -/

namespace Value

/-- The kinds of values. -/
inductive Kind where
  | bool
  | int
  | float
  | text
  | instant
deriving DecidableEq, Repr, Inhabited

/-- The kind of a value. -/
def kind : Value → Kind
  | bool _ => .bool
  | int _ => .int
  | float _ => .float
  | text _ => .text
  | instant _ => .instant

variable {a b c : Value}

theorem sortCompare_eq_swap (a b : Value) : a.sortCompare b = (b.sortCompare a).swap := by
  cases a <;> cases b <;>
    simp only [sortCompare, compare?, rank, Double.totalCompare, Option.getD_some,
      Option.getD_none] <;>
    exact Std.OrientedCmp.eq_swap

/-- Values are compared transitively, unless integers are among them as well as floating-point
numbers. -/
theorem isLE_sortCompare_trans {number : Kind} (isNumber : number = .int ∨ number = .float)
    (lacks : a.kind ≠ number) (lacks' : b.kind ≠ number) (lacks'' : c.kind ≠ number)
    (first : (a.sortCompare b).isLE = true) (second : (b.sortCompare c).isLE = true) :
    (a.sortCompare c).isLE = true := by
  rcases isNumber with rfl | rfl <;> cases a <;> cases b <;> cases c <;>
    simp [kind] at lacks lacks' lacks'' <;>
    simp only [sortCompare, compare?, rank, Double.totalCompare, Option.getD_some,
      Option.getD_none] at first second ⊢ <;>
    first
      | exact Std.TransCmp.isLE_trans first second
      | trivial

/-- Whether keys, where they are not absent, are values of one kind. -/
def OfKind {α : Type} (kind : Kind) (key : α → Option Value) : Prop :=
  ∀ a, ∀ v ∈ key a, v.kind = kind

/-- Whether keys do not mix integers and floating-point numbers: none of them is an integer, or
none is a floating-point number. -/
def Unmixed {α : Type} (key : α → Option Value) : Prop :=
  ∃ number, (number = .int ∨ number = .float) ∧ ∀ a, ∀ v ∈ key a, v.kind ≠ number

theorem OfKind.unmixed {α : Type} {kind : Kind} {key : α → Option Value}
    (ofKind : OfKind kind key) : Unmixed key := by
  by_cases isInt : kind = .int
  · exact ⟨.float, .inr rfl, fun a v mem => by rw [ofKind a v mem, isInt]; decide⟩
  · exact ⟨.int, .inl rfl, fun a v mem => by rw [ofKind a v mem]; exact isInt⟩

theorem compareKeys_eq_swap (ascending : Bool) (a b : Option Value) :
    compareKeys ascending a b = (compareKeys ascending b a).swap := by
  have upwards : compareKeys true a b = (compareKeys true b a).swap := by
    cases a with
    | none => cases b <;> rfl
    | some v =>
      cases b with
      | none => rfl
      | some w => exact sortCompare_eq_swap v w
  cases ascending with
  | true => exact upwards
  | false => exact congrArg Ordering.swap upwards

theorem isLE_compareKeys_true_trans {number : Kind} (isNumber : number = .int ∨ number = .float)
    {a b c : Option Value} (lacks : ∀ v ∈ a, v.kind ≠ number) (lacks' : ∀ v ∈ b, v.kind ≠ number)
    (lacks'' : ∀ v ∈ c, v.kind ≠ number) (first : (compareKeys true a b).isLE = true)
    (second : (compareKeys true b c).isLE = true) : (compareKeys true a c).isLE = true := by
  cases c with
  | none => cases a <;> rfl
  | some w =>
    cases b with
    | none => cases second
    | some v =>
      cases a with
      | none => cases first
      | some u =>
        exact isLE_sortCompare_trans isNumber (lacks u rfl) (lacks' v rfl) (lacks'' w rfl) first
          second

/-- Keys are compared transitively in both directions, unless integers are among them as well as
floating-point numbers. -/
theorem isLE_compareKeys_trans {number : Kind} (isNumber : number = .int ∨ number = .float)
    {ascending : Bool} {a b c : Option Value} (lacks : ∀ v ∈ a, v.kind ≠ number)
    (lacks' : ∀ v ∈ b, v.kind ≠ number) (lacks'' : ∀ v ∈ c, v.kind ≠ number)
    (first : (compareKeys ascending a b).isLE = true)
    (second : (compareKeys ascending b c).isLE = true) :
    (compareKeys ascending a c).isLE = true := by
  cases ascending with
  | true => exact isLE_compareKeys_true_trans isNumber lacks lacks' lacks'' first second
  | false =>
    -- downwards the three are met in the opposite order
    have turned : ∀ x y, compareKeys false x y = compareKeys true y x := fun x y =>
      (compareKeys_eq_swap true y x).symm
    rw [turned] at first second ⊢
    exact isLE_compareKeys_true_trans isNumber lacks'' lacks' lacks second first

end Value

namespace Sorting

/-- The comparison by a key in a direction. -/
def byKey {α : Type} (ascending : Bool) (key : α → Option Value) : Comparison α :=
  fun a b => Value.compareKeys ascending (key a) (key b)

/-- Keys that do not mix integers and floating-point numbers are compared transitively, in both
directions. -/
theorem transCmp_byKey {α : Type} {key : α → Option Value} (unmixed : Value.Unmixed key)
    (ascending : Bool) : Std.TransCmp (byKey ascending key) where
  eq_swap := Value.compareKeys_eq_swap ascending _ _
  isLE_trans {a b c} first second := by
    obtain ⟨number, isNumber, lacks⟩ := unmixed
    exact Value.isLE_compareKeys_trans isNumber (lacks a) (lacks b) (lacks c) first second

/-! ### Sorting -/

variable {α : Type} {cmp : Comparison α} {before : α → α → Prop}

theorem filterMap_getElem?_range (xs : List α) :
    (List.range xs.length).filterMap (xs[·]?) = xs := by
  induction xs with
  | nil => rfl
  | cons x xs ih =>
    have first : (x :: xs)[0]? = some x := rfl
    rw [List.length_cons, List.range_succ_eq_map, List.filterMap_cons_some first,
      List.filterMap_map]
    exact congrArg (x :: ·) ih

/-- Positions that are sorted stably give the items sorted stably. -/
theorem Sorts.of_positions {positions : Comparison Nat} {xs : List α} {order : List Nat}
    (agrees : ∀ {i j x y}, xs[i]? = some x → xs[j]? = some y → positions i j = cmp x y)
    (came : xs.Pairwise before)
    (sorted : Sorts positions (· < ·) (List.range xs.length) order) :
    Sorts cmp before xs (order.filterMap (xs[·]?)) where
  perm := by
    have items := sorted.perm.filterMap (xs[·]?)
    rwa [filterMap_getElem?_range] at items
  ordered := by
    refine List.pairwise_filterMap.mpr (sorted.ordered.imp ?_)
    intro i j leads x at_i y at_j
    unfold Leads
    rw [← agrees at_i at_j]
    refine leads.imp_right fun equal => ⟨equal.1, ?_⟩
    obtain ⟨inside, rfl⟩ := List.getElem?_eq_some_iff.mp at_i
    obtain ⟨inside', rfl⟩ := List.getElem?_eq_some_iff.mp at_j
    exact List.pairwise_iff_getElem.mp came i j inside inside' equal.2

/-- Whether a reader, where it answers, reads a key. -/
def Reads (reader : KeyReader) (key : EntityId → Option Value) : Prop :=
  ∀ ⦃id v⦄, reader id = .ok v → v = key id

/-- Whether the keys of all entities of a list can be read. -/
def Readable (reader : KeyReader) (key : EntityId → Option Value) (ids : List EntityId) : Prop :=
  ∀ id ∈ ids, reader id = .ok (key id)

section Keys

variable {reader : KeyReader} {key : EntityId → Option Value} {ascending : Bool}

/-- A list of readings is the list of what each of them has to be. -/
theorem eq_map_of_mapM {α β γ : Type} {read : α → Except Fault β} {f : γ → α} {g : γ → β}
    (reads : ∀ c b, read (f c) = .ok b → b = g c) {l : List γ} {bs : List β}
    (found : (l.map f).mapM read = .ok bs) : bs = l.map g := by
  induction l generalizing bs with
  | nil =>
    cases found
    rfl
  | cons c l ih =>
    rw [List.map_cons, List.mapM_cons] at found
    obtain ⟨b, first, found⟩ := exists_of_bind_eq_ok found
    obtain ⟨rest, others, found⟩ := exists_of_bind_eq_ok found
    cases found
    rw [List.map_cons, ← reads c b first, ← ih others]

/-- Keys that can be read one by one can be read one after the other. -/
theorem mapM_eq_map {ids : List EntityId} (read : Readable reader key ids) :
    ids.mapM reader = .ok (ids.map key) := by
  induction ids with
  | nil => rfl
  | cons id ids ih =>
    rw [List.mapM_cons, read id List.mem_cons_self, ih fun other mem => read other (.tail _ mem)]
    rfl

theorem readable_of_mapM (reads : Reads reader key) {ids : List EntityId}
    {keys : List (Option Value)} (found : ids.mapM reader = .ok keys) :
    Readable reader key ids := by
  induction ids generalizing keys with
  | nil => exact nofun
  | cons id ids ih =>
    rw [List.mapM_cons] at found
    obtain ⟨v, first, found⟩ := exists_of_bind_eq_ok found
    obtain ⟨rest, others, -⟩ := exists_of_bind_eq_ok found
    intro other mem
    rcases List.mem_cons.mp mem with rfl | mem
    · rw [first, reads first]
    · exact ih others other mem

/-- If the items of a list cannot be read one after the other, one of them cannot be read. -/
theorem exists_of_mapM_error {α β : Type} {read : α → Except Fault β} {l : List α} {fault : Fault}
    (faulted : l.mapM read = .error fault) : ∃ a ∈ l, read a = .error fault := by
  induction l with
  | nil => cases faulted
  | cons a l ih =>
    rw [List.mapM_cons] at faulted
    cases first : read a with
    | error other =>
      rw [first] at faulted
      cases faulted
      exact ⟨a, List.mem_cons_self, first⟩
    | ok b =>
      cases others : l.mapM read with
      | error other =>
        rw [first, others] at faulted
        cases faulted
        obtain ⟨other, mem, unread⟩ := ih others
        exact ⟨other, .tail _ mem, unread⟩
      | ok bs =>
        rw [first, others] at faulted
        cases faulted

/-- The comparison of the positions of a list by the keys of its entities. -/
def byKeyAt (ascending : Bool) (key : EntityId → Option Value) (ids : List EntityId) :
    Comparison Nat :=
  byKey ascending fun i => ids[i]?.bind key

theorem byKeyAt_eq {ids : List EntityId} {i j : Nat} {x y : EntityId} (at_i : ids[i]? = some x)
    (at_j : ids[j]? = some y) : byKeyAt ascending key ids i j = byKey ascending key x y := by
  rw [byKeyAt, byKey, byKey, at_i, at_j]
  rfl

theorem transCmp_byKeyAt (unmixed : Value.Unmixed key) (ascending : Bool) (ids : List EntityId) :
    Std.TransCmp (byKeyAt ascending key ids) := by
  obtain ⟨number, isNumber, lacks⟩ := unmixed
  refine transCmp_byKey ⟨number, isNumber, fun i v mem => ?_⟩ ascending
  obtain ⟨id, -, value⟩ := Option.bind_eq_some_iff.mp mem
  exact lacks id v value

/-- Sorting entities whose keys can be read is sorting their positions. -/
theorem sortRanked_eq (positions : Nat → Comparison Nat → Option (List Nat))
    {ids : List EntityId} (read : Readable reader key ids) :
    sortRanked positions reader ascending ids =
      match positions ids.length (byKeyAt ascending key ids) with
      | some order => .ok (order.filterMap (ids[·]?))
      | none => .error .inconsistentOrder := by
  have keys : ∀ i : Nat, (ids.map key)[i]?.join = ids[i]?.bind key := by
    intro i
    rw [List.getElem?_map]
    cases ids[i]? <;> rfl
  simp only [sortRanked, mapM_eq_map read, bind, Except.bind, List.getElem?_toArray, keys]
  rfl

/-- Entities that have been sorted by their keys stand in an order of their positions. -/
theorem exists_order_of_sortRanked {positions : Nat → Comparison Nat → Option (List Nat)}
    (reads : Reads reader key) {ids sorted : List EntityId}
    (found : sortRanked positions reader ascending ids = .ok sorted) :
    ∃ order, positions ids.length (byKeyAt ascending key ids) = some order ∧
      sorted = order.filterMap (ids[·]?) := by
  obtain ⟨keys, read, -⟩ := exists_of_bind_eq_ok found
  rw [sortRanked_eq positions (readable_of_mapM reads read)] at found
  split at found
  case h_1 order answered =>
    cases found
    exact ⟨order, answered, rfl⟩
  case h_2 => cases found

/-- Entities that have been sorted have keys that can be read. -/
theorem readable_of_sortRanked {positions : Nat → Comparison Nat → Option (List Nat)}
    (reads : Reads reader key) {ids sorted : List EntityId}
    (found : sortRanked positions reader ascending ids = .ok sorted) :
    Readable reader key ids := by
  obtain ⟨keys, read, -⟩ := exists_of_bind_eq_ok found
  exact readable_of_mapM reads read

/-- Sorting by unmixed keys faults only if one of them cannot be read, with whatever method that
sorts by every transitive comparison. -/
theorem exists_of_sortRanked_error {positions : Nat → Comparison Nat → Option (List Nat)}
    (answers : ∀ length cmp, Std.TransCmp cmp → ∃ order, positions length cmp = some order)
    (reads : Reads reader key) (unmixed : Value.Unmixed key) {ids : List EntityId} {fault : Fault}
    (faulted : sortRanked positions reader ascending ids = .error fault) :
    ∃ id ∈ ids, reader id = .error fault := by
  cases read : ids.mapM reader with
  | error other =>
    rw [sortRanked, read] at faulted
    cases faulted
    exact exists_of_mapM_error read
  | ok keys =>
    obtain ⟨order, answered⟩ := answers ids.length (byKeyAt ascending key ids)
      (transCmp_byKeyAt unmixed ascending ids)
    rw [sortRanked_eq positions (readable_of_mapM reads read), answered] at faulted
    cases faulted

/-! ### Merging -/

/-- The source that remains of a listing once its head has been read. -/
def Source.of (key : EntityId → Option Value) (run : List EntityId) : Source :=
  ⟨run.head?.map fun id => ⟨key id, id⟩, run.tail.map .ok⟩

theorem eq_source_of_read (reads : Reads reader key) (run : List EntityId) (source : Source)
    (found : Source.read reader (run.map .ok) = .ok source) : source = .of key run := by
  cases run with
  | nil =>
    cases found
    rfl
  | cons id rest =>
    obtain ⟨v, read, found⟩ := exists_of_bind_eq_ok found
    cases found
    rw [reads read]
    rfl

/-- The search for the leading head looks at nothing but the comparisons. -/
theorem leadingFrom_map {β : Type} {cmp : Comparison α} {cmp' : Comparison β} (f : α → β)
    (agrees : ∀ x y, cmp' (f x) (f y) = cmp x y) (best : Option (Nat × α)) (i : Nat)
    (heads : List (Option α)) :
    leadingFrom cmp' (best.map (Prod.map id f)) i (heads.map (Option.map f))
      = (leadingFrom cmp best i heads).map (Prod.map id f) := by
  induction heads generalizing best i with
  | nil => rfl
  | cons head heads ih =>
    cases head with
    | none => exact ih best (i + 1)
    | some x =>
      cases best with
      | none => exact ih (some (i, x)) (i + 1)
      | some b =>
        show (if cmp' (f x) (f b.2) = .lt then _ else _) = _
        rw [agrees, leadingFrom]
        split
        · exact ih (some (i, x)) (i + 1)
        · exact ih (some b) (i + 1)

theorem leading_sources (runs : List (List EntityId)) :
    leading (Ranked.compare ascending) ((runs.map (Source.of key)).map Source.head)
      = (leading (byKey ascending key) (runs.map List.head?)).map
          (Prod.map id fun id => ⟨key id, id⟩) := by
  have heads : (runs.map (Source.of key)).map Source.head
      = (runs.map List.head?).map (Option.map fun id => (⟨key id, id⟩ : Ranked)) := by
    rw [List.map_map, List.map_map]
    rfl
  rw [heads]
  exact leadingFrom_map (fun id => (⟨key id, id⟩ : Ranked)) (fun _ _ => rfl) none 0 _

theorem map_modify_tail (runs : List (List EntityId)) (i : Nat) :
    (runs.modify i List.tail).map (Source.of key)
      = (runs.map (Source.of key)).set i (.of key (runs[i]?.getD []).tail) := by
  induction runs generalizing i with
  | nil => rw [List.modify_nil, List.map_nil, List.set_nil]
  | cons run runs ih =>
    cases i with
    | zero => rfl
    | succ i =>
      rw [List.modify_succ_cons, List.map_cons, ih i]
      rfl

theorem rest_of_sources (runs : List (List EntityId)) (i : Nat) :
    ((runs.map (Source.of key))[i]?.map Source.rest).getD []
      = (runs[i]?.getD []).tail.map .ok := by
  rw [List.getElem?_map]
  cases runs[i]? <;> rfl

theorem eq_takeLeading_of_takeRanked (reads : Reads reader key) {count : Nat}
    {runs : List (List EntityId)} {taken : List EntityId}
    (found : takeRanked reader ascending count (runs.map (.of key)) = .ok taken) :
    taken = takeLeading (byKey ascending key) count runs := by
  induction count generalizing runs taken with
  | zero =>
    cases found
    rfl
  | succ count ih =>
    rw [takeRanked, leading_sources] at found
    rw [takeLeading]
    cases first : leading (byKey ascending key) (runs.map List.head?) with
    | none =>
      rw [first] at found
      cases found
      rfl
    | some entry =>
      obtain ⟨i, head⟩ := entry
      rw [first] at found
      obtain ⟨next, read, found⟩ := exists_of_bind_eq_ok found
      obtain ⟨rest, later, found⟩ := exists_of_bind_eq_ok found
      cases found
      rw [rest_of_sources] at read
      obtain rfl := eq_source_of_read reads _ _ read
      have same : rest = takeLeading (byKey ascending key) count (runs.modify i List.tail) := by
        refine ih ?_
        rw [map_modify_tail]
        exact later
      rw [same]

/-- Merging listings is merging the runs of their entities, if it answers. -/
theorem eq_mergeRuns_of_mergeRanked (reads : Reads reader key) {runs : List (List EntityId)}
    {merged : List EntityId}
    (found : mergeRanked reader ascending (runs.map (·.map .ok)) = .ok merged) :
    merged = mergeRuns (byKey ascending key) runs := by
  obtain ⟨sources, heads, found⟩ := exists_of_bind_eq_ok found
  obtain rfl := eq_map_of_mapM (eq_source_of_read reads) heads
  have length : (runs.map (·.map (.ok : EntityId → Except Fault EntityId))).flatten.length
      = runs.flatten.length := by
    rw [← List.map_flatten, List.length_map]
  rw [length] at found
  exact eq_takeLeading_of_takeRanked reads found

theorem read_source {run : List EntityId} (readable : Readable reader key run) :
    Source.read reader (run.map .ok) = .ok (.of key run) := by
  cases run with
  | nil => rfl
  | cons id rest =>
    rw [List.map_cons, Source.read, readable id List.mem_cons_self]
    rfl

theorem Readable.modify {runs : List (List EntityId)}
    (readable : ∀ run ∈ runs, Readable reader key run) (i : Nat) :
    ∀ run ∈ runs.modify i List.tail, Readable reader key run := by
  intro run mem id inside
  obtain ⟨whole, mem, suffix⟩ := mem_modify_tail mem
  exact readable whole mem id (suffix.subset inside)

theorem takeRanked_eq {count : Nat} {runs : List (List EntityId)}
    (readable : ∀ run ∈ runs, Readable reader key run) :
    takeRanked reader ascending count (runs.map (.of key))
      = .ok (takeLeading (byKey ascending key) count runs) := by
  induction count generalizing runs with
  | zero => rfl
  | succ count ih =>
    rw [takeRanked, leading_sources, takeLeading]
    cases leading (byKey ascending key) (runs.map List.head?) with
    | none => rfl
    | some entry =>
      obtain ⟨i, head⟩ := entry
      have rest : Readable reader key (runs[i]?.getD []).tail := by
        intro id mem
        cases at_i : runs[i]? with
        | none => rw [at_i] at mem; cases mem
        | some run =>
          rw [at_i] at mem
          exact readable run (List.mem_of_getElem? at_i) id (List.mem_of_mem_tail mem)
      have later := ih (Readable.modify readable i)
      rw [map_modify_tail] at later
      simp only [Option.map_some, Prod.map_apply, id_eq, rest_of_sources, read_source rest, bind,
        Except.bind, later]
      rfl

/-- Merging listings answers, if the keys of their entities can be read. -/
theorem mergeRanked_eq {runs : List (List EntityId)}
    (readable : ∀ run ∈ runs, Readable reader key run) :
    mergeRanked reader ascending (runs.map (·.map .ok))
      = .ok (mergeRuns (byKey ascending key) runs) := by
  have heads : (runs.map (·.map .ok)).mapM (Source.read reader) = .ok (runs.map (.of key)) := by
    induction runs with
    | nil => rfl
    | cons run runs ih =>
      rw [List.map_cons, List.mapM_cons, read_source (readable run List.mem_cons_self),
        ih fun other mem => readable other (.tail _ mem)]
      rfl
  have length : (runs.map (·.map (.ok : EntityId → Except Fault EntityId))).flatten.length
      = runs.flatten.length := by
    rw [← List.map_flatten, List.length_map]
  rw [mergeRanked, heads, length]
  exact takeRanked_eq readable

end Keys

end Sorting

end ExtentQuery
