import ExtentQuery.Query

/-!
# Canonical text

`Query.canonical` writes a query as one line of text.  The text of a node is its tag
followed by its attributes and operands in parentheses; names are written with their
length (`Text.counted`), so the boundary between two names is never in doubt.

**Order of operands.**  An intersection or a union writes its operands in the order of
their own texts.  Two queries that differ only in the order of such operands therefore
share a canonical text, which is what makes it a good key for remembering answers.
-/

namespace ExtentQuery.Query

/-- The texts of two operands that may change places, the smaller one first. -/
def canonicalPair (left right : String) : String :=
  if right < left then right ++ "," ++ left else left ++ "," ++ right

/-- A value that may be absent. -/
def canonicalOption : Option Value → String
  | some value => value.canonical
  | none => "n"

/-- The canonical text of a query. -/
def canonical : Query → String
  | root c => "root(" ++ c.canonical ++ ")"
  | all => "all()"
  | linksFrom source link => "links(" ++ source.text ++ "," ++ Text.counted link ++ ")"
  | equals property value =>
    "pe(" ++ Text.counted property ++ "," ++ canonicalOption value ++ ")"
  | between property low high =>
    "pr(" ++ Text.counted property ++ "," ++ low.canonical ++ "," ++ high.canonical ++ ")"
  | startsWith property start =>
    "psw(" ++ Text.counted property ++ "," ++ Text.counted start ++ ")"
  | hasProperty property => "pnn(" ++ Text.counted property ++ ")"
  | linkedTo link (some target) => "le(" ++ Text.counted link ++ "," ++ target.text ++ ")"
  | linkedTo link none => "le(" ++ Text.counted link ++ ",n)"
  | hasLink link => "lnn(" ++ Text.counted link ++ ")"
  | linkedInto link targets targetType =>
    "led(" ++ Text.counted link ++ "," ++ Text.counted targetType ++ ","
      ++ targets.canonical ++ ")"
  | inter l r => "and(" ++ canonicalPair l.canonical r.canonical ++ ")"
  | union l r => "or(" ++ canonicalPair l.canonical r.canonical ++ ")"
  | diff l r => "minus(" ++ l.canonical ++ "," ++ r.canonical ++ ")"
  | concat l r => "concat(" ++ l.canonical ++ "," ++ r.canonical ++ ")"
  | compl c => "not(" ++ c.canonical ++ ")"
  | sort order c => "sort(" ++ order.canonical ++ "," ++ c.canonical ++ ")"
  | custom leaf => leaf.name ++ "(" ++ leaf.attributes ++ ")"
  | slot number => "?(" ++ toString number ++ ")"
  | converter number conversion =>
    "?(" ++ toString number ++ ":" ++ conversion.name ++ ")"

theorem canonicalPair_comm (left right : String) :
    canonicalPair left right = canonicalPair right left := by
  unfold canonicalPair
  by_cases lower : right < left
  · simp [lower, String.lt_asymm lower]
  · by_cases upper : left < right
    · simp [lower, upper]
    · have equal : left = right :=
        String.le_antisymm (String.not_lt.mp lower) (String.not_lt.mp upper)
      simp [equal]

/-- Intersections of the same operands share a canonical text. -/
theorem canonical_inter_comm (l r : Query) : (inter l r).canonical = (inter r l).canonical := by
  simp only [canonical, canonicalPair_comm]

/-- Unions of the same operands share a canonical text. -/
theorem canonical_union_comm (l r : Query) : (union l r).canonical = (union r l).canonical := by
  simp only [canonical, canonicalPair_comm]

end ExtentQuery.Query
