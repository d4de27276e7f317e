import ExtentQuery.EntityId

/-!
# Set operations on lists of entities

Four operations combine two lists of entities.  Intersection and difference keep the
order and the repetitions of the left list; a union lists every entity once, at the place
where it occurs first; a concatenation keeps everything.

`unionById` is the union of two lists that are in the order of identities, and its result
is in that order again.
-/

namespace ExtentQuery

/-- An operation on two selections. -/
inductive SetOperation where
  | inter
  | union
  | diff
  | concat
deriving DecidableEq, Repr, Inhabited

namespace SetOperation

/-- The result on two lists. -/
def apply : SetOperation → List EntityId → List EntityId → List EntityId
  | inter, left, right => left.filter fun id => right.contains id
  | union, left, right => (left ++ right).eraseDups
  | diff, left, right => left.filter fun id => !right.contains id
  | concat, left, right => left ++ right

/-- The union of two lists in the order of identities. -/
def unionById : List EntityId → List EntityId → List EntityId
  | [], right => right
  | left, [] => left
  | x :: left, y :: right =>
    match x.compare y with
    | .lt => x :: unionById left (y :: right)
    | .gt => y :: unionById (x :: left) right
    | .eq => x :: unionById left right
termination_by left right => left.length + right.length

/-- An intersection lists what both lists contain. -/
theorem mem_apply_inter (left right : List EntityId) (id : EntityId) :
    id ∈ inter.apply left right ↔ id ∈ left ∧ id ∈ right := by
  simp [apply]

/-- A union lists what either list contains. -/
theorem mem_apply_union (left right : List EntityId) (id : EntityId) :
    id ∈ union.apply left right ↔ id ∈ left ∨ id ∈ right := by
  simp [apply]

/-- A difference lists what only the left list contains. -/
theorem mem_apply_diff (left right : List EntityId) (id : EntityId) :
    id ∈ diff.apply left right ↔ id ∈ left ∧ id ∉ right := by
  simp [apply]

/-- A concatenation lists what either list contains. -/
theorem mem_apply_concat (left right : List EntityId) (id : EntityId) :
    id ∈ concat.apply left right ↔ id ∈ left ∨ id ∈ right := by
  simp [apply]

end SetOperation

end ExtentQuery
