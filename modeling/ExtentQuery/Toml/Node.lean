/-!
# TOML values and tables

A document is a table, and a table maps keys to values and to further tables.  While a
document is read, each table carries a mark that says what brought it about, because the
same table may not be written twice and the marks decide what counts as twice.

* `Node` — values and tables;
* `Mark` — what brought a table about;
* `Entries` — what a table maps, in the order of first appearance.

Numbers with a fraction and dates are kept as they were written.
-/

namespace ExtentQuery.Toml

/-- What brought a table about. -/
inductive Mark where
  /-- Written between braces; nothing can be added to it. -/
  | inline
  /-- Opened by a header of its own. -/
  | header
  /-- Implied by the header of a table inside it. -/
  | implied
  /-- Implied by a dotted key. -/
  | dotted
deriving DecidableEq, Repr, Inhabited

/-- A value or a table. -/
inductive Node where
  | string (text : String)
  | integer (n : Int)
  /-- A number with a fraction or an exponent, an infinity or a non-number. -/
  | float (text : String)
  | bool (b : Bool)
  /-- A date, a time, or both. -/
  | dateTime (text : String)
  | array (items : List Node)
  | table (mark : Mark) (entries : List (String × Node))
  /-- Tables that were opened one after the other by headers in double brackets. -/
  | tables (elements : List (List (String × Node)))
deriving Inhabited

/-- What a table maps. -/
abbrev Entries := List (String × Node)

namespace Entries

/-- Replaces the value of a key, or adds it at the end. -/
def set (entries : Entries) (key : String) (node : Node) : Entries :=
  if (entries.lookup key).isSome then
    entries.map fun entry => if entry.1 == key then (key, node) else entry
  else entries ++ [(key, node)]

end Entries

end ExtentQuery.Toml
