import ExtentQuery.Query.Canonical

/-!
# Equality of queries

`Query.same` is the equality that rewriting goes by: two occurrences of one placeholder
have to stand for the same query, and a round of rewriting that ends with the same query
is the last one.

It is coarser than equality of trees.  The operands of an intersection or a union may
stand in either order, custom leaves are compared by their canonical text, supplied sort
keys and converters by what identifies them, and floats numerically.  The last point
makes it finer, too: a query that holds a not-a-number is not the same as itself.
-/

namespace ExtentQuery.Query

/-- Equality of queries up to the order of commuting operands. -/
def same : Query → Query → Bool
  | root a, root b => a.same b
  | all, all => true
  | linksFrom source link, linksFrom source' link' => source == source' && link == link'
  | equals property value, equals property' value' =>
    property == property' && Value.sameOption value value'
  | between property low high, between property' low' high' =>
    property == property' && low.same low' && high.same high'
  | startsWith property start, startsWith property' start' =>
    property == property' && start == start'
  | hasProperty property, hasProperty property' => property == property'
  | linkedTo link target, linkedTo link' target' => link == link' && target == target'
  | hasLink link, hasLink link' => link == link'
  | linkedInto link targets type, linkedInto link' targets' type' =>
    link == link' && type == type' && targets.same targets'
  | inter a b, inter c d => (a.same c && b.same d) || (a.same d && b.same c)
  | union a b, union c d => (a.same c && b.same d) || (a.same d && b.same c)
  | diff a b, diff c d => a.same c && b.same d
  | concat a b, concat c d => a.same c && b.same d
  | compl a, compl b => a.same b
  | sort order a, sort order' b => order.same order' && a.same b
  | custom leaf, custom leaf' =>
    (custom leaf).canonical == (custom leaf').canonical
  | slot number, slot number' => number == number'
  | converter number conversion, converter number' conversion' =>
    number == number' && conversion.name == conversion'.name
  | _, _ => false

end ExtentQuery.Query
