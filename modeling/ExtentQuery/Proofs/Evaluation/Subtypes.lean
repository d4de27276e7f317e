import ExtentQuery.Metadata
import Mathlib.Logic.Relation

/-!
# Subtypes at any distance

The search for the subtypes of a type finds all types that are reached by steps from a
type to one of its direct subtypes, in hierarchies of any shape.

* `Metadata.Derives` — one type derives from another one, at any distance;
* `Metadata.mem_family_iff` — a type and its closure are the types that derive from it;
* `Metadata.mem_family_of_isSubtype` — the hierarchy of a subtype is part of the hierarchy.

**Complete because nothing is left in the queue.**  Whatever the search has visited, each
direct subtype of it has been visited or is waiting (`Metadata.mem_or_of_search`).  At the
end nothing waits, so the types that were visited are closed under steps.
-/

namespace ExtentQuery.Metadata

variable {m : Metadata} {type name : String}

/-- Whether a type is another one or derives from it through direct subtypes. -/
def Derives (m : Metadata) (ancestor type : String) : Prop :=
  Relation.ReflTransGen (fun a b => b ∈ m.directSubtypes a) ancestor type

theorem mem_directSubtypes {a b : String} :
    b ∈ m.directSubtypes a ↔ ∃ entry ∈ m.subtypes a, entry.1 = b := by
  simp only [directSubtypes, List.mem_map]

/-- Whatever the search finds was found before, or derives from what was waiting. -/
theorem derives_of_mem_search {queue : List { name : String // name ∈ m.subtypeNames }}
    {found : List String} (waiting : ∀ entry ∈ queue, m.Derives type entry.1)
    (visited : ∀ name ∈ found, m.Derives type name) :
    ∀ name ∈ m.search type queue found, m.Derives type name := by
  induction queue, found using search.induct m type with
  | case1 found =>
    rw [search]
    exact visited
  | case2 found next queue skip ih =>
    rw [search, dif_pos skip]
    exact ih (fun entry mem => waiting entry (.tail _ mem)) visited
  | case3 found next queue visit ih =>
    have here := waiting next List.mem_cons_self
    rw [search, dif_neg visit]
    refine ih (fun entry mem => ?_) (fun name mem => ?_)
    · rcases List.mem_append.mp mem with mem | mem
      · exact waiting entry (.tail _ mem)
      · exact here.tail (mem_directSubtypes.mpr ⟨entry, mem, rfl⟩)
    · rcases List.mem_append.mp mem with mem | mem
      · exact visited name mem
      · exact List.mem_singleton.mp mem ▸ here

/-- The search keeps what it has visited, and visits the direct subtypes of everything that
it visits. -/
theorem mem_or_of_search {queue : List { name : String // name ∈ m.subtypeNames }}
    {found : List String}
    (pending : ∀ a ∈ type :: found, ∀ entry ∈ m.subtypes a,
      entry.1 ∈ type :: found ∨ entry ∈ queue) :
    ∀ a ∈ type :: m.search type queue found, ∀ b ∈ m.directSubtypes a,
      b ∈ type :: m.search type queue found := by
  induction queue, found using search.induct m type with
  | case1 found =>
    rw [search]
    intro a mem b below
    obtain ⟨entry, here, rfl⟩ := mem_directSubtypes.mp below
    exact (pending a mem entry here).resolve_right List.not_mem_nil
  | case2 found next queue skip ih =>
    rw [search, dif_pos skip]
    refine ih fun a mem entry here => ?_
    rcases pending a mem entry here with known | waiting
    · exact .inl known
    · rcases List.mem_cons.mp waiting with rfl | waiting
      · exact .inl (List.mem_cons.mpr skip)
      · exact .inr waiting
  | case3 found next queue visit ih =>
    rw [search, dif_neg visit]
    have grows : ∀ {name}, name ∈ type :: found → name ∈ type :: (found ++ [next.1]) := by
      intro name mem
      rw [← List.cons_append]
      exact List.mem_append_left _ mem
    refine ih fun a mem entry here => ?_
    rw [← List.cons_append, List.mem_append, List.mem_singleton] at mem
    -- the subtypes of the type that is visited now join the queue
    rcases mem with mem | rfl
    · rcases pending a mem entry here with known | waiting
      · exact .inl (grows known)
      · rcases List.mem_cons.mp waiting with rfl | waiting
        · refine .inl ?_
          rw [← List.cons_append]
          exact List.mem_append_right _ List.mem_cons_self
        · exact .inr (List.mem_append_left _ waiting)
    · exact .inr (List.mem_append_right _ here)

/-- A type and its closure are the types that derive from it. -/
theorem mem_family_iff : name ∈ type :: m.closure type ↔ m.Derives type name := by
  constructor
  · intro mem
    rcases List.mem_cons.mp mem with rfl | mem
    · exact .refl
    · have waiting : ∀ entry ∈ m.subtypes type, m.Derives type entry.1 := fun entry here =>
        .single (mem_directSubtypes.mpr ⟨entry, here, rfl⟩)
      exact derives_of_mem_search waiting (fun _ none => absurd none List.not_mem_nil) name mem
  · intro derives
    induction derives with
    | refl => exact List.mem_cons_self
    | tail _ below ih =>
      refine mem_or_of_search (fun a mem entry here => ?_) _ ih _ below
      obtain rfl := List.mem_singleton.mp mem
      exact .inr here

theorem isSubtype_iff {ancestor : String} :
    m.isSubtype type ancestor = true ↔ m.Derives ancestor type := by
  rw [← mem_family_iff, isSubtype, Bool.or_eq_true, beq_iff_eq, List.contains_iff_mem,
    List.mem_cons]

theorem isSubtype_self (m : Metadata) (type : String) : m.isSubtype type type = true :=
  isSubtype_iff.mpr .refl

/-- The hierarchy of a subtype is part of the hierarchy. -/
theorem mem_family_of_isSubtype {ancestor : String} (below : m.isSubtype type ancestor = true)
    (mem : name ∈ type :: m.closure type) : name ∈ ancestor :: m.closure ancestor :=
  mem_family_iff.mpr ((isSubtype_iff.mp below).trans (mem_family_iff.mp mem))

end ExtentQuery.Metadata
