import ExtentQuery.EntityId
import ExtentQuery.SortStep
import ExtentQuery.Value

/-!
# Queries

A query is a tree that describes a selection of entities.  Its leaves name what the
store can look up, its inner nodes combine selections, and two more leaves are the
placeholders of rewrite rules, which are written as queries themselves.

* `Query` — the trees, `Query.Kind` — the kind of a node without its attributes;
* `Query.arity`, `Query.child?`, `Query.setChild` — uniform access to the operands;
* `Query.size`, `Query.depth` — number of nodes and number of levels;
* `Query.spansTypes` — whether a selection already ranges over every type.

**Operands and decorated queries.**  `Query.linkedInto` holds a query too, the one that
selects the targets of the link, but it is not an operand: it is answered over a type of
its own, is rewritten on its own when it is answered, and counts neither for the depth
nor for the operands.

**Placeholders.**  `Query.slot` stands for any query.  `Query.converter` stands for a
node that one of the `Transformation`s accepts, and is replaced by what the conversion makes
of that node; conversions are defined with pattern matching.
-/

namespace ExtentQuery

/-- A leaf contributed by a particular store.  It lists its members outright, and is
identified by its name and the text of its attributes. -/
structure CustomSelection where
  name : String
  attributes : String
  /-- Whether the members stand as they are.  Otherwise the leaf selects only those that
  are in the extent of the type that is asked for. -/
  spansTypes : Bool
  members : List EntityId
deriving DecidableEq, Repr, Inhabited

/-- The transformations that a converter placeholder can stand for. -/
inductive Transformation where
  /-- Two ranges over one property become their common range. -/
  | commonRange
  /-- "Equals nothing" becomes the complement of "has the property". -/
  | absentProperty
  /-- "Links to nothing" becomes the complement of "has the link". -/
  | absentLink
deriving DecidableEq, Repr, Inhabited

/-- The name that stands for a conversion in canonical texts. -/
def Transformation.name : Transformation → String
  | commonRange => "merge_ranges"
  | absentProperty => "null_property"
  | absentLink => "null_link"

/-- A selection of entities, or the pattern of one. -/
inductive Query where
  /-- Holder of a query that is being rewritten, so that its top node has a parent. -/
  | root (child : Query)
  /-- Every entity of the type that is asked for. -/
  | all
  /-- The targets of a link of one entity, of whatever type. -/
  | linksFrom (source : EntityId) (link : String)
  /-- Entities whose property equals a value; with `none`, those without the property. -/
  | equals (property : String) (value : Option Value)
  /-- Entities whose property lies between two bounds, both included. -/
  | between (property : String) (low high : Value)
  /-- Entities whose property is a text that starts in a given way. -/
  | startsWith (property : String) (start : String)
  /-- Entities that have the property, be it a value or a blob. -/
  | hasProperty (property : String)
  /-- Entities with a link to a target; with `none`, those without the link. -/
  | linkedTo (link : String) (target : Option EntityId)
  /-- Entities that have at least one target on the link. -/
  | hasLink (link : String)
  /-- Entities linked to any entity that `targets` selects over `targetType`. -/
  | linkedInto (link : String) (targets : Query) (targetType : String)
  /-- Intersection. -/
  | inter (left right : Query)
  /-- Union. -/
  | union (left right : Query)
  /-- Difference. -/
  | diff (left right : Query)
  /-- The left selection followed by the right one, repetitions kept. -/
  | concat (left right : Query)
  /-- Complement within the type that is asked for. -/
  | compl (child : Query)
  /-- The child's selection in another order. -/
  | sort (order : SortStep) (child : Query)
  /-- A leaf that only a particular store understands. -/
  | custom (leaf : CustomSelection)
  /-- Placeholder for any query. -/
  | slot (number : Nat)
  /-- Placeholder for a node that a conversion accepts. -/
  | converter (number : Nat) (conversion : Transformation)
deriving DecidableEq, Inhabited

/-- The kind of a node, without attributes and operands. -/
inductive Query.Kind where
  | root
  | all
  | linksFrom
  | equals
  | between
  | startsWith
  | hasProperty
  | linkedTo
  | hasLink
  | linkedInto
  | inter
  | union
  | diff
  | concat
  | compl
  | sort
  | custom
  | slot
deriving DecidableEq, Repr, Inhabited

/-- The kind of node that a conversion works on. -/
def Transformation.kind : Transformation → Query.Kind
  | commonRange => .inter
  | absentProperty => .equals
  | absentLink => .linkedTo

namespace Query

/-- The kind of a node; a converter passes for the nodes that it stands for. -/
def kind : Query → Kind
  | root _ => .root
  | all => .all
  | linksFrom .. => .linksFrom
  | equals .. => .equals
  | between .. => .between
  | startsWith .. => .startsWith
  | hasProperty _ => .hasProperty
  | linkedTo .. => .linkedTo
  | hasLink _ => .hasLink
  | linkedInto .. => .linkedInto
  | inter .. => .inter
  | union .. => .union
  | diff .. => .diff
  | concat .. => .concat
  | compl _ => .compl
  | sort .. => .sort
  | custom _ => .custom
  | slot _ => .slot
  | converter _ conversion => conversion.kind

/-- The word that opens a node's canonical text. -/
def tag : Query → String
  | root _ => "root"
  | all => "all"
  | linksFrom .. => "links"
  | equals .. => "pe"
  | between .. => "pr"
  | startsWith .. => "psw"
  | hasProperty _ => "pnn"
  | linkedTo .. => "le"
  | hasLink _ => "lnn"
  | linkedInto .. => "led"
  | inter .. => "and"
  | union .. => "or"
  | diff .. => "minus"
  | concat .. => "concat"
  | compl _ => "not"
  | sort .. => "sort"
  | custom leaf => leaf.name
  | slot _ => "?"
  | converter .. => "?"

/-- Whether the two operands may change places. -/
def commutative : Query → Bool
  | inter .. => true
  | union .. => true
  | _ => false

/-! ### Operands -/

/-- Number of operands. -/
def arity : Query → Nat
  | inter .. => 2
  | union .. => 2
  | diff .. => 2
  | concat .. => 2
  | root _ => 1
  | compl _ => 1
  | sort .. => 1
  | _ => 0

/-- The operand at a position, if the node has one there. -/
def child? : Query → Nat → Option Query
  | inter l _, 0 => some l
  | inter _ r, 1 => some r
  | union l _, 0 => some l
  | union _ r, 1 => some r
  | diff l _, 0 => some l
  | diff _ r, 1 => some r
  | concat l _, 0 => some l
  | concat _ r, 1 => some r
  | root c, 0 => some c
  | compl c, 0 => some c
  | sort _ c, 0 => some c
  | _, _ => none

/-- The node with another operand at a position; a position without an operand leaves
the node as it is. -/
def setChild : Query → Nat → Query → Query
  | inter _ r, 0, q => inter q r
  | inter l _, 1, q => inter l q
  | union _ r, 0, q => union q r
  | union l _, 1, q => union l q
  | diff _ r, 0, q => diff q r
  | diff l _, 1, q => diff l q
  | concat _ r, 0, q => concat q r
  | concat l _, 1, q => concat l q
  | root _, 0, q => root q
  | compl _, 0, q => compl q
  | sort order _, 0, q => sort order q
  | node, _, _ => node

/-- The operands in order. -/
def children : Query → List Query
  | inter l r => [l, r]
  | union l r => [l, r]
  | diff l r => [l, r]
  | concat l r => [l, r]
  | root c => [c]
  | compl c => [c]
  | sort _ c => [c]
  | _ => []

/-- Number of nodes, counted through operands. -/
def size : Query → Nat
  | inter l r => l.size + r.size + 1
  | union l r => l.size + r.size + 1
  | diff l r => l.size + r.size + 1
  | concat l r => l.size + r.size + 1
  | root c => c.size + 1
  | compl c => c.size + 1
  | sort _ c => c.size + 1
  | _ => 1

/-- Number of levels; a leaf has one. -/
def depth : Query → Nat
  | inter l r => max l.depth r.depth + 1
  | union l r => max l.depth r.depth + 1
  | diff l r => max l.depth r.depth + 1
  | concat l r => max l.depth r.depth + 1
  | root c => c.depth + 1
  | compl c => c.depth + 1
  | sort _ c => c.depth + 1
  | _ => 1

/-- Whether the selection already ranges over every type, so that answering it once for
each type of a hierarchy would repeat it.  A combination does so only if both of its
operands do, and a complement never does. -/
def spansTypes : Query → Bool
  | linksFrom .. => true
  | custom leaf => leaf.spansTypes
  | root c => c.spansTypes
  | sort _ c => c.spansTypes
  | inter l r => l.spansTypes && r.spansTypes
  | union l r => l.spansTypes && r.spansTypes
  | diff l r => l.spansTypes && r.spansTypes
  | concat l r => l.spansTypes && r.spansTypes
  | _ => false

/-- Whether the query or any operand below it ranges over every type. -/
def someSpansTypes : Query → Bool
  | q@(root c) => q.spansTypes || c.someSpansTypes
  | q@(compl c) => q.spansTypes || c.someSpansTypes
  | q@(sort _ c) => q.spansTypes || c.someSpansTypes
  | q@(inter l r) => q.spansTypes || l.someSpansTypes || r.someSpansTypes
  | q@(union l r) => q.spansTypes || l.someSpansTypes || r.someSpansTypes
  | q@(diff l r) => q.spansTypes || l.someSpansTypes || r.someSpansTypes
  | q@(concat l r) => q.spansTypes || l.someSpansTypes || r.someSpansTypes
  | q => q.spansTypes

/-- Whether any sort step of the query, also within decorated queries, ranks by a supplied
key. -/
def usesSuppliedKey : Query → Bool
  | root c => c.usesSuppliedKey
  | compl c => c.usesSuppliedKey
  | sort order c => !order.cacheable || c.usesSuppliedKey
  | inter l r => l.usesSuppliedKey || r.usesSuppliedKey
  | union l r => l.usesSuppliedKey || r.usesSuppliedKey
  | diff l r => l.usesSuppliedKey || r.usesSuppliedKey
  | concat l r => l.usesSuppliedKey || r.usesSuppliedKey
  | linkedInto _ targets _ => targets.usesSuppliedKey
  | _ => false

/-- Whether the selection can be answered for each type of a hierarchy on its own.  It
cannot if any part of it ranges over every type, and neither can a concatenation or a sort
be put together from the types. -/
def typeLocal : Query → Bool
  | linksFrom .. => false
  | custom leaf => !leaf.spansTypes
  | root c => c.typeLocal
  | compl c => c.typeLocal
  | inter l r => l.typeLocal && r.typeLocal
  | union l r => l.typeLocal && r.typeLocal
  | diff l r => l.typeLocal && r.typeLocal
  | concat .. => false
  | sort .. => false
  | _ => true

/-- The link, the targets and their type, if the query selects what is linked into other
entities. -/
def linkedTargets? : Query → Option (String × Query × String)
  | linkedInto link targets targetType => some (link, targets, targetType)
  | _ => none

/-- Splits the sort steps at the top of a query, outermost first, from the query that
they sort. -/
def splitSorts : Query → List SortStep × Query
  | sort order c => (order :: c.splitSorts.1, c.splitSorts.2)
  | q => ([], q)

/-- One query that selects what `filter` selects from the answer of `outer`.  A sort of
everything sorts that answer. -/
def andThen (outer filter : Query) : Query :=
  match filter, outer with
  | sort order all, outer => sort order outer
  | filter, all => filter
  | filter, outer => inter outer filter

/-! ### Laws of operands -/

theorem size_pos (q : Query) : 0 < q.size := by
  cases q <;> simp [size]

theorem size_lt_of_child? {q c : Query} {i : Nat} (h : q.child? i = some c) :
    c.size < q.size := by
  unfold child? at h
  split at h <;> cases h <;> simp only [size] <;> omega

theorem lt_two_of_child? {q c : Query} {i : Nat} (h : q.child? i = some c) : i < 2 := by
  unfold child? at h
  split at h <;> simp_all

/-- Putting back an operand changes nothing. -/
theorem setChild_child? {q c : Query} {i : Nat} (h : q.child? i = some c) :
    q.setChild i c = q := by
  unfold child? at h
  split at h <;> simp_all [setChild]

/-- The operand that was put in is the one that is there. -/
theorem child?_setChild {q c : Query} {i : Nat} (h : q.child? i = some c) (d : Query) :
    (q.setChild i d).child? i = some d := by
  unfold child? at h
  split at h <;> simp_all [setChild, child?]

/-- There is an operand exactly at the positions below the arity. -/
theorem isSome_child?_iff (q : Query) (i : Nat) : (q.child? i).isSome ↔ i < q.arity := by
  unfold child?
  split <;> simp_all [arity]
  cases q <;> simp_all <;> omega

end Query

end ExtentQuery
