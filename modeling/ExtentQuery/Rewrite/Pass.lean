import ExtentQuery.Rewrite.Hoisted
import ExtentQuery.Rewrite.Rule

/-!
# Passes

A pass is an ordered list of rules together with the way in which it walks through a
query.  Running it rewrites the operands below a node until nothing changes any more, or
until the number of rewrites that the run may perform is used up.

* `Pass` — the rules and the mode; `Pass.extend` adds a rule in all its orientations, and
  `Pass.extend?` refuses one that has too many;
* `Progress` — a query with the hoisted steps and the remaining budget;
* `Pass.step?` — one change of an operand: a sort step is taken out, or a rule applies;
* `Pass.scanWith`, `Pass.scan` — one scan over the operands of a node, given what scans of
  less credit do, and without such help;
* `Pass.run` — scans until one changes nothing or the budget is used up.

**The walk.**  A scan looks at the operands of a node from left to right.  A pass that
applies on entry first tries to change an operand and descends into it only if there is
no change; any other pass descends first.  After every change the scan starts again at
the first operand of the same node, because a change may enable another one there.
Taking out a sort step does not use the budget, and a walk with no budget left still
descends.

**Why it ends.**  `Progress.credit` adds the remaining budget to the number of steps
that may still be taken out.  Every change lowers it by one, and a scan that leaves it
as it was has changed nothing at all: this is `Progress.Reaches`, which the type of
`Pass.scan` carries along.  Hence the scan of an operand either lowers the credit or
gives the operand back, and the walk goes on in a smaller rest.  A walk is a recursion over
the credit (`Pass.scanWithin`), and until something changes, one over what is left of the
query (`Pass.scanWith`); both go down in a natural number.
-/

namespace ExtentQuery.Rewrite

/-- An ordered list of rules and the way in which it is applied. -/
structure Pass where
  /-- The name that warnings give. -/
  name : String
  /-- Concrete rules; the first one that applies wins. -/
  rules : List Rule
  /-- Whether rules are tried on an operand before its own operands. -/
  onEntry : Bool
  /-- Whether sort steps are taken out of the query. -/
  hoists : Bool
deriving DecidableEq, Inhabited

/-- A pass without rules. -/
def Pass.empty (name : String) (onEntry : Bool) (hoists : Bool) : Pass :=
  { name, rules := [], onEntry, hoists }

/-- Adds a rule in all its orientations. -/
def Pass.extend (pass : Pass) (source destination : Query) : Pass :=
  { pass with rules := pass.rules ++ Rule.orientations ⟨source, destination⟩ }

/-- The most commuting nodes that the source of a rule may have.  A choice of flipped
nodes is a number of 32 binary digits. -/
def maxCommutative : Nat := 31

/-- Adds a rule in all its orientations, unless there are too many. -/
def Pass.extend? (pass : Pass) (source destination : Query) : Except Fault Pass :=
  if source.commutativeCount ≤ maxCommutative then .ok (pass.extend source destination)
  else .error .tooManyOrientations

/-- A query in the middle of a run. -/
structure Progress where
  query : Query
  hoisted : Hoisted
  /-- How many rewrites may still be performed. -/
  budget : Nat

namespace Progress

/-- The number of changes that are still possible. -/
def credit (p : Progress) : Nat :=
  p.budget + p.hoisted.room

/-- The number of changes between two points of a run. -/
def changesTo (start later : Progress) : Nat :=
  start.credit - later.credit

/-- A later point of a run: either something has changed and the credit is lower, or
nothing has changed at all. -/
def Reaches (start later : Progress) : Prop :=
  later.credit < start.credit ∨ later = start

theorem Reaches.refl (p : Progress) : p.Reaches p := .inr rfl

theorem Reaches.of_lt {start here later : Progress} (reached : start.Reaches here)
    (lower : later.credit < here.credit) : start.Reaches later := by
  rcases reached with h | rfl
  · exact .inl (Nat.lt_trans lower h)
  · exact .inl lower

theorem Reaches.credit_le {start later : Progress} (reached : start.Reaches later) :
    later.credit ≤ start.credit := by
  rcases reached with h | rfl
  · exact Nat.le_of_lt h
  · exact Nat.le_refl _

/-- The run, looking at one operand instead of the whole query. -/
def focus (p : Progress) (operand : Query) : Progress :=
  { p with query := operand }

/-- The run after the scan of an operand, with the scanned operand back in its place. -/
def resume (p : Progress) (i : Nat) (scanned : Progress) : Progress :=
  { scanned with query := p.query.setChild i scanned.query }

/-- A scan of an operand reaches, seen from the whole query, what it reaches. -/
theorem Reaches.resume {start here scanned : Progress} {operand : Query} {i : Nat}
    (at_i : here.query.child? i = some operand)
    (reached : start.Reaches here) (below : (here.focus operand).Reaches scanned) :
    start.Reaches (here.resume i scanned) := by
  rcases below with lower | rfl
  · exact reached.of_lt lower
  · have unchanged : here.resume i (here.focus operand) = here := by
      simp only [Progress.resume, focus, Query.setChild_child? at_i]
    rw [unchanged]
    exact reached

/-- Less of a query is left in an operand, and at the operand after it. -/
theorem left_focus_lt {here : Progress} {operand : Query} {i : Nat}
    (at_i : here.query.child? i = some operand) :
    3 * (here.focus operand).query.size + 2 < 3 * here.query.size + (2 - i) := by
  have smaller : operand.size < here.query.size := Query.size_lt_of_child? at_i
  simp only [focus]
  omega

theorem left_next_lt {here : Progress} {operand : Query} {i : Nat}
    (at_i : here.query.child? i = some operand) :
    3 * here.query.size + (2 - (i + 1)) < 3 * here.query.size + (2 - i) := by
  have := Query.lt_two_of_child? at_i
  omega

end Progress

namespace Pass

/-- One change of the operand at a position, with the proof that it lowers the credit: a
sort step is taken out of the query if there is room for it, otherwise the first rule
that applies rewrites the operand if the budget allows it. -/
def step? (pass : Pass) (here : Progress) (i : Nat) (operand : Query) :
    Except Fault (Option { next : Progress // next.credit < here.credit }) :=
  match hoist? with
  | some next => .ok (some next)
  | none =>
    if budgetLeft : 0 < here.budget then
      match firstRewrite? pass.rules operand with
      | .error fault => .error fault
      | .ok none => .ok none
      | .ok (some replacement) =>
        .ok (some ⟨{ here with
            query := here.query.setChild i replacement
            budget := here.budget - 1 }, by
          simp only [Progress.credit]
          omega⟩)
    else .ok none
where
  /-- Takes the sort step at the top of the operand out of the query. -/
  hoist? : Option { next : Progress // next.credit < here.credit } :=
    match pass.hoists, operand with
    | true, .sort order sorted =>
      match pushed : here.hoisted.push order with
      | some hoisted =>
        some ⟨{ here with query := here.query.setChild i sorted, hoisted }, by
          have := Hoisted.room_lt_of_push pushed
          simp only [Progress.credit]
          omega⟩
      | none => none
    | _, _ => none

/-- What scans do that begin with less credit than a bound. -/
def Scan (bound : Nat) : Type :=
  (start here : Progress) → Nat → start.Reaches here → here.credit < bound →
    Except Fault { last : Progress // start.Reaches last }

/-- Scans the operands of a node from position `i` on.  The scan began at `start` and has
come to `here`.  After a change it goes on as scans of less credit do. -/
def scanWith (pass : Pass) {bound : Nat} (changed : Scan bound) (start here : Progress) (i : Nat)
    (reached : start.Reaches here) (within : here.credit ≤ bound) :
    Except Fault { last : Progress // start.Reaches last } :=
  match at_i : here.query.child? i with
  | none => .ok ⟨here, reached⟩
  | some operand =>
    if pass.onEntry then
      match pass.step? here i operand with
      | .error fault => .error fault
      | .ok (some ⟨next, lower⟩) =>
        changed start next 0 (reached.of_lt lower) (Nat.lt_of_lt_of_le lower within)
      | .ok none =>
        match pass.scanWith changed (here.focus operand) (here.focus operand) 0 (.refl _) within with
        | .error fault => .error fault
        | .ok ⟨scanned, below⟩ =>
          if lower : scanned.credit < here.credit then
            changed start (here.resume i scanned) (i + 1) (.resume at_i reached below)
              (Nat.lt_of_lt_of_le lower within)
          else pass.scanWith changed start here (i + 1) reached within
    else
      match pass.scanWith changed (here.focus operand) (here.focus operand) 0 (.refl _) within with
      | .error fault => .error fault
      | .ok ⟨scanned, below⟩ =>
        match pass.step? (here.resume i scanned) i scanned.query with
        | .error fault => .error fault
        | .ok (some ⟨next, lower⟩) =>
          changed start next 0 ((Progress.Reaches.resume at_i reached below).of_lt lower)
            (Nat.lt_of_lt_of_le lower (Nat.le_trans below.credit_le within))
        | .ok none =>
          if lower : scanned.credit < here.credit then
            changed start (here.resume i scanned) (i + 1) (.resume at_i reached below)
              (Nat.lt_of_lt_of_le lower within)
          else pass.scanWith changed start here (i + 1) reached within
termination_by 3 * here.query.size + (2 - i)
decreasing_by
  · exact Progress.left_focus_lt at_i
  · exact Progress.left_next_lt at_i
  · exact Progress.left_focus_lt at_i
  · exact Progress.left_next_lt at_i

/-- Scans with no more credit than a bound. -/
def scanWithin (pass : Pass) (bound : Nat) (start here : Progress) (i : Nat)
    (reached : start.Reaches here) (within : here.credit ≤ bound) :
    Except Fault { last : Progress // start.Reaches last } :=
  match bound with
  | 0 => pass.scanWith (fun _ _ _ _ lower => absurd lower (Nat.not_lt_zero _)) start here i reached
      within
  | bound + 1 => pass.scanWith (fun start here i reached lower =>
      pass.scanWithin bound start here i reached (Nat.le_of_lt_succ lower)) start here i reached
      within

/-- One scan over the operands of a node, from position `i` on. -/
def scan (pass : Pass) (start here : Progress) (i : Nat) (reached : start.Reaches here) :
    Except Fault { last : Progress // start.Reaches last } :=
  pass.scanWithin here.credit start here i reached (Nat.le_refl _)

/-- Runs a pass: scans the operands of the query again and again, until a scan changes
nothing or the budget is used up. -/
def run (pass : Pass) (start : Progress) : Except Fault Progress :=
  match pass.scan start start 0 (.refl _) with
  | .error fault => .error fault
  | .ok ⟨last, _⟩ =>
    if _changed : last.credit < start.credit ∧ last.budget ≠ 0 then pass.run last
    else .ok last
termination_by start.credit

end Pass

end ExtentQuery.Rewrite
