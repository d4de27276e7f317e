import ExtentQuery.Double
import ExtentQuery.Text.Counted
import ExtentQuery.Text.Lowercase

/-!
# Property values

A property holds a truth value, an integer, a floating-point number, a text or an
instant.  An absent property is not a value: every place that may lack one holds an
`Option Value`, so "equals nothing" is told apart from every value by its shape.

There are three ways to relate two values, and they differ on purpose:

* `Value.compare?` — what predicates use.  Values of one kind compare, integers and
  floats compare numerically, and all other pairs are incomparable;
* `Value.sortCompare` — what sorting uses.  It relates every two values: text without
  regard to case, floats by their total order, and different kinds by `rank`;
* `Value.same` — equality of values inside queries, which keeps the kinds apart and
  compares floats numerically.

`SortKey`s that may be absent are related by `Value.compareKeys`, where an absent key
counts as the greatest.
-/

namespace ExtentQuery

/-- A property value. -/
inductive Value where
  | bool (b : Bool)
  | int (n : Int64)
  | float (x : Double)
  | text (s : String)
  /-- Nanoseconds since the epoch. -/
  | instant (nanoseconds : Int)
deriving DecidableEq, Repr, Inhabited

namespace Value

/-- Position of a value's kind among the kinds; numbers of both kinds share one. -/
def rank : Value → Nat
  | bool _ => 0
  | int _ => 1
  | float _ => 1
  | text _ => 2
  | instant _ => 3

/-- Comparison of compatible values.  An integer is rounded to a double before it is
compared with one; values of other different kinds are incomparable. -/
def compare? : Value → Value → Option Ordering
  | bool a, bool b => some (compare a b)
  | int a, int b => some (compare a.toInt b.toInt)
  | float a, float b => a.compare? b
  | int a, float b => (Double.ofInt a.toInt).compare? b
  | float a, int b => a.compare? (Double.ofInt b.toInt)
  | text a, text b => some (compare a b)
  | instant a, instant b => some (compare a b)
  | _, _ => none

/-- Comparison for sorting: it ignores the case of text, takes floats by their total
order, and orders values of incomparable kinds by the rank of their kinds. -/
def sortCompare : Value → Value → Ordering
  | text a, text b => List.compareLex compare (Text.fold a) (Text.fold b)
  | float a, float b => a.totalCompare b
  | int a, float b => (Double.ofInt a.toInt).totalCompare b
  | float a, int b => a.totalCompare (Double.ofInt b.toInt)
  | a, b => (a.compare? b).getD (compare a.rank b.rank)

/-- Comparison of sort keys in a direction.  An absent key is greater than every value,
hence last when ascending and first when descending. -/
def compareKeys (ascending : Bool) (a b : Option Value) : Ordering :=
  let order :=
    match a, b with
    | none, none => .eq
    | none, some _ => .gt
    | some _, none => .lt
    | some a, some b => a.sortCompare b
  if ascending then order else order.swap

/-- Whether a value lies between two bounds, both included.  A bound that is
incomparable with the value excludes it. -/
def within (v low high : Value) : Bool :=
  (v.compare? low).any Ordering.isGE && (v.compare? high).any Ordering.isLE

/-- Equality within queries: kinds are kept apart and floats compare numerically. -/
def same : Value → Value → Bool
  | bool a, bool b => a == b
  | int a, int b => a == b
  | float a, float b => a.equals b
  | text a, text b => a == b
  | instant a, instant b => a == b
  | _, _ => false

/-- Equality of values that may be absent. -/
def sameOption : Option Value → Option Value → Bool
  | none, none => true
  | some a, some b => a.same b
  | _, _ => false

/-- The part of a query's canonical text that writes a value.  It delimits itself: the
text of a string is preceded by its length in bytes. -/
def canonical : Value → String
  | bool b => "b:" ++ toString b
  | int n => "i:" ++ toString n.toInt
  | float x => "f:" ++ String.ofList (Nat.toDigits 16 x.bits.toNat)
  | text s => "s" ++ Text.counted s
  | instant n => "d:" ++ toString n

end Value

end ExtentQuery
