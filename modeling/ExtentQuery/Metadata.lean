/-!
# Metadata

What a query needs to know about the types of entities: the subtypes of a type, the far
end of a link, and whether a property holds a blob.

* `Metadata` — a source of these facts;
* `Metadata.closure` — the subtypes of a type at any distance, breadth first;
* `Metadata.isSubtype` — the subtype relation that the closure induces.

**Finite hierarchies.**  A `Metadata` lists all types that are the subtype of any type,
and `subtypes` can only answer with those.  Nothing forbids a type with several parents
or a cycle of subtypes; the list is what makes the search end.  The queue and the direct
subtypes of all types that have not been found yet get fewer with every step.
-/

namespace ExtentQuery

/-- How many targets a link may have. -/
inductive Cardinality where
  | single
  | multiple
deriving DecidableEq, Repr, Inhabited

/-- The far end of a link. -/
structure Association where
  targetType : String
  cardinality : Cardinality
  /-- The link that leads back, if there is one. -/
  opposite : Option String
deriving DecidableEq, Repr, Inhabited

/-- How a property is stored. -/
inductive PropertyStorage where
  | primitive
  | blob
deriving DecidableEq, Repr, Inhabited

/-- Facts about the types of entities. -/
structure Metadata where
  /-- Every type that is a subtype of some type. -/
  subtypeNames : List String
  /-- The direct subtypes of a type. -/
  subtypes : String → List { name : String // name ∈ subtypeNames }
  /-- The far end of a link of a type. -/
  association : (type link : String) → Option Association
  /-- How a property of a type is stored. -/
  storage : (type property : String) → PropertyStorage

namespace Metadata

/-- The direct subtypes of a type. -/
def directSubtypes (m : Metadata) (type : String) : List String :=
  (m.subtypes type).map (·.1)

/-- How many direct subtypes the types have altogether that have not been found yet. -/
def unfound (m : Metadata) (found : List String) : Nat :=
  ((m.subtypeNames.filter (· ∉ found)).flatMap m.subtypes).length

/-- Leaving a name out of a list takes off what the name stands for. -/
theorem length_flatMap_filter_ne_add_le {α : Type} (f : String → List α) {name : String}
    {l : List String} (mem : name ∈ l) :
    ((l.filter (· ≠ name)).flatMap f).length + (f name).length ≤ (l.flatMap f).length := by
  have fewer : ∀ l : List String,
      ((l.filter (· ≠ name)).flatMap f).length ≤ (l.flatMap f).length := by
    intro l
    induction l with
    | nil => exact Nat.le_refl _
    | cons other l ih =>
      rw [List.filter_cons]
      split <;> simp only [List.flatMap_cons, List.length_append] <;> omega
  induction l with
  | nil => cases mem
  | cons other l ih =>
    rw [List.filter_cons]
    by_cases same : other = name
    · have := fewer l
      simp only [same, ne_eq, not_true, decide_false, Bool.false_eq_true, if_false,
        List.flatMap_cons, List.length_append] at this ⊢
      omega
    · have := ih ((List.mem_cons.mp mem).resolve_left fun eq => same eq.symm)
      simp only [same, ne_eq, not_false_eq_true, decide_true, if_true, List.flatMap_cons,
        List.length_append] at this ⊢
      omega

/-- Finding one more name takes its direct subtypes off. -/
theorem unfound_add_le (m : Metadata) {found : List String} {name : String}
    (known : name ∈ m.subtypeNames) (fresh : name ∉ found) :
    m.unfound (found ++ [name]) + (m.subtypes name).length ≤ m.unfound found := by
  have split : m.subtypeNames.filter (· ∉ found ++ [name])
      = (m.subtypeNames.filter (· ∉ found)).filter (· ≠ name) := by
    rw [List.filter_filter]
    congr 1
    funext other
    simp [not_or, Bool.and_comm]
  unfold unfound
  rw [split]
  exact length_flatMap_filter_ne_add_le _ (by simp [known, fresh])

/-- Continues a breadth-first search below `type`: `queue` is what has been met but not
visited, and `found` is what has been visited, in order. -/
def search (m : Metadata) (type : String)
    (queue : List { name : String // name ∈ m.subtypeNames }) (found : List String) :
    List String :=
  match queue with
  | [] => found
  | next :: queue =>
    if _skip : next.1 = type ∨ next.1 ∈ found then m.search type queue found
    else m.search type (queue ++ m.subtypes next.1) (found ++ [next.1])
termination_by m.unfound found + queue.length
decreasing_by
  · simp
  · have := m.unfound_add_le next.2 (fun known => _skip (.inr known))
    simp only [List.length_append, List.length_cons]
    omega

/-- Every subtype of a type at any distance, breadth first and without the type
itself. -/
def closure (m : Metadata) (type : String) : List String :=
  m.search type (m.subtypes type) []

/-- Whether a type is another one or derives from it. -/
def isSubtype (m : Metadata) (type ancestor : String) : Bool :=
  type == ancestor || (m.closure ancestor).contains type

/-- The same facts without the blobs: every property counts as primitive. -/
def withoutBlobs (m : Metadata) : Metadata :=
  { m with storage := fun _ _ => .primitive }

end Metadata

end ExtentQuery
