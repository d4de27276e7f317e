import ExtentQuery.SetOperation
import ExtentQuery.Store
import Mathlib.Data.List.Nodup
import Mathlib.Data.List.Pairwise
import Mathlib.Data.List.Range
import Mathlib.Order.RelClasses

/-!
# Extents and the order of identities

The store lists the entities of one type from front to back.  This module says which
entities such a list holds and in which order, and what the operations on lists make of
both.

* `EntityId.Precedes`, `Ascending` — the order of identities, and lists that strictly
  follow it;
* `Store.Has` — an entity of exactly one type, with its record;
* `Store.mem_scan`, `Store.ascending_scan` — what a scan of a type lists;
* `SetOperation.mem_unionById`, `SetOperation.ascending_unionById` — merging two lists
  that follow the order.

A list that strictly follows the order has no repetitions, so it is the only such list
with its members.
-/

namespace ExtentQuery

/-! ### The order of identities -/

namespace EntityId

/-- Whether an identity comes strictly before another one. -/
def Precedes (a b : EntityId) : Prop :=
  a.compare b = .lt

theorem precedes_iff {a b : EntityId} :
    a.Precedes b ↔ a.typeId < b.typeId ∨ a.typeId = b.typeId ∧ a.localId < b.localId := by
  unfold Precedes compare
  rw [Ordering.then_eq_lt, Nat.compare_eq_lt, Nat.compare_eq_eq, Nat.compare_eq_lt]

theorem compare_eq_eq {a b : EntityId} : a.compare b = .eq ↔ a = b := by
  unfold compare
  rw [Ordering.then_eq_eq, Nat.compare_eq_eq, Nat.compare_eq_eq]
  constructor
  · rintro ⟨types, locals⟩
    cases a
    cases b
    simp_all
  · rintro rfl
    exact ⟨rfl, rfl⟩

theorem compare_eq_gt {a b : EntityId} : a.compare b = .gt ↔ b.Precedes a := by
  rw [precedes_iff]
  unfold compare
  rw [Ordering.then_eq_gt, Nat.compare_eq_gt, Nat.compare_eq_eq, Nat.compare_eq_gt, eq_comm]

theorem Precedes.trans {a b c : EntityId} (first : a.Precedes b) (second : b.Precedes c) :
    a.Precedes c := by
  rw [precedes_iff] at *
  omega

instance : IsStrictTotalOrder EntityId Precedes where
  irrefl a before := by
    rw [precedes_iff] at before
    omega
  trans _ _ _ := Precedes.trans
  trichotomous a b notBefore notAfter := by
    cases compared : a.compare b with
    | lt => exact absurd compared notBefore
    | eq => exact compare_eq_eq.mp compared
    | gt => exact absurd (compare_eq_gt.mp compared) notAfter

end EntityId

/-- Whether a list strictly follows the order of identities. -/
def Ascending (ids : List EntityId) : Prop :=
  ids.Pairwise EntityId.Precedes

theorem ascending_nil : Ascending [] :=
  .nil

theorem Ascending.nodup {ids : List EntityId} (ascending : Ascending ids) : ids.Nodup :=
  List.Pairwise.nodup ascending

/-- Leaving entities out keeps the order. -/
theorem Ascending.filter {ids : List EntityId} (ascending : Ascending ids)
    (keep : EntityId → Bool) : Ascending (ids.filter keep) :=
  List.Pairwise.filter keep ascending

/-! ### Scans -/

namespace Store

/-- Whether an entity is of exactly one type and has a record. -/
def Has (store : Store) (type : String) (id : EntityId) (record : Record) : Prop :=
  store.typeId? type = some id.typeId ∧ store.record? id = some record

theorem record_eq_ok {store : Store} {id : EntityId} {record : Record} :
    store.record id = .ok record ↔ store.record? id = some record := by
  unfold Store.record
  cases store.record? id <;> simp

theorem links_eq_ok {store : Store} {id : EntityId} {link : String} {ids : List EntityId} :
    store.links id link = .ok ids ↔
      ∃ record, store.record? id = some record ∧ record.targets link = ids := by
  unfold links Store.record
  cases store.record? id <;> simp [bind, Except.bind, pure, Except.pure]

theorem eq_of_typeId? {store : Store} {type type' : String} {typeId : Nat}
    (named : store.typeId? type = some typeId) (named' : store.typeId? type' = some typeId) :
    type = type' := by
  simp only [typeId?, Array.findIdx?_eq_some_iff_getElem] at named named'
  obtain ⟨_, here, -⟩ := named
  obtain ⟨_, there, -⟩ := named'
  exact (beq_iff_eq.mp here).symm.trans (beq_iff_eq.mp there)

/-- An entity has one record only, and is of one type only. -/
theorem Has.unique {store : Store} {type type' : String} {id : EntityId}
    {record record' : Record} (one : store.Has type id record)
    (other : store.Has type' id record') : type = type' ∧ record = record' :=
  ⟨eq_of_typeId? one.1 other.1, Option.some.inj (one.2.symm.trans other.2)⟩

theorem mem_scanTable {typeId : Nat} {table : Table} {keep : Record → Bool} {id : EntityId} :
    id ∈ scanTable typeId table keep ↔
      id.typeId = typeId ∧ ∃ record, table.records[id.localId]? = some record ∧
        keep record = true := by
  simp only [scanTable, List.mem_map, List.mem_filter, Prod.exists, List.mem_zipIdx_iff_getElem?,
    Array.getElem?_toList]
  constructor
  · rintro ⟨record, position, ⟨found, kept⟩, rfl⟩
    exact ⟨rfl, record, found, kept⟩
  · rintro ⟨rfl, record, found, kept⟩
    exact ⟨record, id.localId, ⟨found, kept⟩, rfl⟩

/-- A scan of a type lists the entities of exactly this type that satisfy the
condition. -/
theorem mem_scan {store : Store} {type : String} {keep : Record → Bool}
    {ids : List EntityId} (scanned : store.scan type keep = .ok ids) {id : EntityId} :
    id ∈ ids ↔ ∃ record, store.Has type id record ∧ keep record = true := by
  unfold scan at scanned
  cases number : store.typeId? type with
  | none =>
    simp only [typeId, number, bind, Except.bind] at scanned
    cases scanned
  | some n =>
    simp only [typeId, number, bind, Except.bind, pure, Except.pure, Except.ok.injEq] at scanned
    subst scanned
    unfold Has record?
    cases table : store.tables[n]? with
    -- a type without a table has no entities
    | none =>
      constructor
      · rintro ⟨⟩
      · rintro ⟨record, ⟨named, found⟩, -⟩
        cases number.symm.trans named
        simp [table] at found
    | some table' =>
      simp only [Option.map_some, Option.getD_some, mem_scanTable]
      constructor
      · rintro ⟨rfl, record, found, kept⟩
        exact ⟨record, ⟨number, by simp [table, found]⟩, kept⟩
      · rintro ⟨record, ⟨named, found⟩, kept⟩
        cases number.symm.trans named
        simp only [bind, Option.bind, table] at found
        exact ⟨rfl, record, found, kept⟩

theorem ascending_scanTable (typeId : Nat) (table : Table) (keep : Record → Bool) :
    Ascending (scanTable typeId table keep) := by
  unfold scanTable Ascending
  rw [List.pairwise_map]
  refine List.Pairwise.filter _ ?_
  have positions : (table.records.toList.zipIdx.map (·.2)).Pairwise (· < ·) := by
    rw [List.zipIdx_map_snd]
    exact List.pairwise_lt_range'
  refine (List.pairwise_map.mp positions).imp ?_
  rintro ⟨record, position⟩ ⟨record', position'⟩ before
  exact EntityId.precedes_iff.mpr (.inr ⟨rfl, before⟩)

/-- A scan follows the order of identities. -/
theorem ascending_scan {store : Store} {type : String} {keep : Record → Bool}
    {ids : List EntityId} (scanned : store.scan type keep = .ok ids) : Ascending ids := by
  unfold scan at scanned
  cases number : store.typeId type with
  | error fault =>
    simp only [number, bind, Except.bind] at scanned
    cases scanned
  | ok n =>
    simp only [number, bind, Except.bind, pure, Except.pure, Except.ok.injEq] at scanned
    subst scanned
    cases store.tables[n]? with
    | none => exact ascending_nil
    | some table => exact ascending_scanTable n table keep

end Store

/-! ### Merging -/

namespace SetOperation

/-- Merging lists what either list holds. -/
theorem mem_unionById (id : EntityId) (left right : List EntityId) :
    id ∈ unionById left right ↔ id ∈ left ∨ id ∈ right := by
  induction left, right using unionById.induct with
  | case1 right => simp [unionById]
  | case2 left => simp [unionById]
  | case3 x left y right before ih => simp [unionById, before, ih, or_assoc]
  | case4 x left y right after ih =>
    simp only [unionById, after, List.mem_cons, ih]
    tauto
  | case5 x left y right same ih =>
    obtain rfl := EntityId.compare_eq_eq.mp same
    simp only [unionById, same, List.mem_cons, ih]
    tauto

/-- Merging keeps the order. -/
theorem ascending_unionById {left right : List EntityId} (ascending : Ascending left)
    (ascending' : Ascending right) : Ascending (unionById left right) := by
  induction left, right using unionById.induct with
  | case1 right => simpa [unionById] using ascending'
  | case2 left => simpa [unionById] using ascending
  | case3 x left y right before ih =>
    simp only [unionById, before]
    obtain ⟨first, rest⟩ := List.pairwise_cons.mp ascending
    obtain ⟨first', -⟩ := List.pairwise_cons.mp ascending'
    refine List.pairwise_cons.mpr ⟨fun id mem => ?_, ih rest ascending'⟩
    rcases (mem_unionById id _ _).mp mem with here | here
    · exact first id here
    · rcases List.mem_cons.mp here with rfl | here
      · exact before
      · exact EntityId.Precedes.trans before (first' id here)
  | case4 x left y right after ih =>
    simp only [unionById, after]
    obtain ⟨first, -⟩ := List.pairwise_cons.mp ascending
    obtain ⟨first', rest'⟩ := List.pairwise_cons.mp ascending'
    have before := EntityId.compare_eq_gt.mp after
    refine List.pairwise_cons.mpr ⟨fun id mem => ?_, ih ascending rest'⟩
    rcases (mem_unionById id _ _).mp mem with here | here
    · rcases List.mem_cons.mp here with rfl | here
      · exact before
      · exact before.trans (first id here)
    · exact first' id here
  | case5 x left y right same ih =>
    obtain rfl := EntityId.compare_eq_eq.mp same
    simp only [unionById, same]
    obtain ⟨first, rest⟩ := List.pairwise_cons.mp ascending
    obtain ⟨first', rest'⟩ := List.pairwise_cons.mp ascending'
    refine List.pairwise_cons.mpr ⟨fun id mem => ?_, ih rest rest'⟩
    rcases (mem_unionById id _ _).mp mem with here | here
    · exact first id here
    · exact first' id here

end SetOperation

end ExtentQuery
