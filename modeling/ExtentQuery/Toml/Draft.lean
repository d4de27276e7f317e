import ExtentQuery.Toml.Node

/-!
# Putting a document together

A document is read line by line.  Each line either opens a table or assigns a value, and
a `Draft` is what the lines so far amount to.

**No table twice.**  A header may open a table that exists already only if the table was
implied by the header of a table inside it.  A dotted key may add to a table only if a
dotted key brought the table about; on its way there it may pass through tables that were
implied by headers.  No key is assigned twice, and nothing can be added to a table in
braces or to a value.

**Double brackets** open another table with the same name.  Keys and headers that lead
through such a name mean the table that was opened last.
-/

namespace ExtentQuery.Toml

/-- Assigns a value to a dotted key in a table. -/
def assign (value : Node) : (path : List String) → Entries → Option Entries
  | [], _ => none
  | [key], entries =>
    if (entries.lookup key).isSome then none else some (entries.set key value)
  | key :: next :: rest, entries =>
    match entries.lookup key with
    | none => do
      let child ← assign value (next :: rest) []
      return entries.set key (.table .dotted child)
    | some (.table mark child) =>
      if mark = .dotted ∨ (mark = .implied ∧ rest ≠ []) then do
        let child ← assign value (next :: rest) child
        return entries.set key (.table mark child)
      else none
    | some (.tables elements) =>
      if rest = [] then none
      else do
        let last ← elements.getLast?
        let last ← assign value (next :: rest) last
        return entries.set key (.tables (elements.dropLast ++ [last]))
    | some _ => none

/-- Changes what the path of a header leads to; tables on the way that do not exist are
implied. -/
def atHeader (change : Option Node → Option Node) : (path : List String) → Entries →
    Option Entries
  | [], _ => none
  | [key], entries => return entries.set key (← change (entries.lookup key))
  | key :: next :: rest, entries =>
    match entries.lookup key with
    | none => do
      let child ← atHeader change (next :: rest) []
      return entries.set key (.table .implied child)
    | some (.table .inline _) => none
    | some (.table mark child) => do
      let child ← atHeader change (next :: rest) child
      return entries.set key (.table mark child)
    | some (.tables elements) => do
      let last ← elements.getLast?
      let last ← atHeader change (next :: rest) last
      return entries.set key (.tables (elements.dropLast ++ [last]))
    | some _ => none

/-- Opens a table in single brackets. -/
def openTable : Option Node → Option Node
  | none => some (.table .header [])
  | some (.table .implied entries) => some (.table .header entries)
  | some _ => none

/-- Opens another table in double brackets. -/
def openElement : Option Node → Option Node
  | none => some (.tables [[]])
  | some (.tables elements) => some (.tables (elements ++ [[]]))
  | some _ => none

/-- Changes the table that a header opened last. -/
def insideOpened (change : Entries → Option Entries) : Option Node → Option Node
  | some (.table mark entries) => return .table mark (← change entries)
  | some (.tables elements) => do
    let last ← elements.getLast?
    return .tables (elements.dropLast ++ [← change last])
  | _ => none

/-- A line of a document. -/
inductive Line where
  | assignment (path : List String) (value : Node)
  /-- A header in single brackets. -/
  | table (path : List String)
  /-- A header in double brackets. -/
  | element (path : List String)

/-- What the lines so far amount to. -/
structure Draft where
  root : Entries
  /-- The path of the last header; none before the first one. -/
  header : Option (List String)

namespace Draft

/-- No lines. -/
def empty : Draft := ⟨[], none⟩

/-- Adds a line. -/
def add (draft : Draft) : Line → Option Draft
  | .assignment path value =>
    match draft.header with
    | none => return { draft with root := ← assign value path draft.root }
    | some header =>
      return { draft with
        root := ← atHeader (insideOpened (assign value path)) header draft.root }
  | .table path => return ⟨← atHeader openTable path draft.root, some path⟩
  | .element path => return ⟨← atHeader openElement path draft.root, some path⟩

end Draft

/-- The table that is written between braces. -/
def inlineTable (pairs : List (List String × Node)) : Option Node := do
  let entries ← pairs.foldlM (fun entries pair => assign pair.2 pair.1 entries) []
  return .table .inline entries

end ExtentQuery.Toml
