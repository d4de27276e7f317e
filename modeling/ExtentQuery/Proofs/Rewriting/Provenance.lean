import ExtentQuery.Proofs.Rewriting.Taking

/-!
# Where sort steps come from

Every sort step of an optimized query, taken out or not, is one of the steps of the query that it
was made of.  The rules move steps around, drop them and repeat them, but they bring in none.

* `orders_subset_of_below` — what a rule binds is an operand, so it has steps of the query only;
* `exists_of_fill` — a replacement has the steps of what its placeholders stand for;
* `orders_subset_optimize` — the steps of an optimized query.
-/

namespace ExtentQuery

namespace Query

/-- A node has the sort steps of its operands. -/
theorem orders_subset_of_child? {q c : Query} {i : Nat} (at_i : q.child? i = some c) :
    c.orders ⊆ q.orders := by
  unfold child? at at_i
  split at at_i <;> cases at_i
  case h_1 | h_3 | h_5 | h_7 => exact List.subset_append_left _ _
  case h_2 | h_4 | h_6 | h_8 => exact List.subset_append_right _ _
  case h_9 | h_10 => exact List.Subset.refl _
  case h_11 => exact List.subset_cons_self _ _

theorem orders_subset_of_below {d q : Query} (below : d.Below q) : d.orders ⊆ q.orders := by
  induction below with
  | operand at_i => exact orders_subset_of_child? at_i
  | deeper at_i _ ih => exact List.Subset.trans ih (orders_subset_of_child? at_i)

/-- An operand that is replaced by one with fewer steps leaves the node with fewer steps. -/
theorem orders_subset_setChild {q c d : Query} {i : Nat} (at_i : q.child? i = some c)
    (fewer : d.orders ⊆ c.orders) : (q.setChild i d).orders ⊆ q.orders := by
  unfold child? at at_i
  split at at_i <;> cases at_i
  case h_1 r | h_3 r | h_5 r | h_7 r =>
    exact List.append_subset.mpr
      ⟨List.Subset.trans fewer (List.subset_append_left _ _), List.subset_append_right _ _⟩
  case h_2 l | h_4 l | h_6 l | h_8 l =>
    exact List.append_subset.mpr
      ⟨List.subset_append_left _ _, List.Subset.trans fewer (List.subset_append_right _ _)⟩
  case h_9 | h_10 => exact fewer
  case h_11 => exact List.cons_subset_cons _ fewer

/-- A conversion brings in no sort step. -/
theorem orders_subset_convert (conversion : Transformation) (q : Query) :
    (conversion.convert q).orders ⊆ q.orders := by
  unfold Transformation.convert
  split
  case h_1 =>
    split
    · exact List.nil_subset _
    · exact List.Subset.refl _
  case h_2 | h_3 => exact List.nil_subset _
  case h_4 => exact List.Subset.refl _

/-- The sort steps of a replacement are those of what its placeholders stand for. -/
theorem exists_of_fill {bindings : Bindings} : ∀ {pattern filled : Query},
    pattern.unsorted = true → pattern.fill bindings = .ok filled →
      ∀ step ∈ filled.orders, ∃ number x, bindings.find? number = some x ∧ step ∈ x.orders := by
  intro pattern
  have bound : ∀ {number : Nat} {x : Query}, boundOrFault bindings number = .ok x →
      bindings.find? number = some x := by
    intro number x found
    unfold boundOrFault at found
    split at found
    case h_1 q eq => rwa [Except.ok.inj found] at eq
    case h_2 => cases found
  induction pattern with
  | slot number => exact fun _ found step mem => ⟨number, _, bound found, mem⟩
  | converter number conversion =>
    intro filled _ found step mem
    obtain ⟨x, here, found⟩ := exists_of_bind_eq_ok found
    cases found
    exact ⟨number, x, bound here, orders_subset_convert conversion x mem⟩
  | root c ih | compl c ih =>
    intro filled unsorted found
    obtain ⟨x, operand, found⟩ := exists_of_bind_eq_ok found
    cases found
    exact fun step mem => ih unsorted operand step mem
  | sort order c ih =>
    intro filled unsorted
    cases unsorted
  | inter l r ihl ihr | union l r ihl ihr | diff l r ihl ihr | concat l r ihl ihr =>
    intro filled unsorted found
    obtain ⟨unsortedLeft, unsortedRight⟩ := (Bool.and_eq_true _ _).mp unsorted
    obtain ⟨x, left, found⟩ := exists_of_bind_eq_ok found
    obtain ⟨y, right, found⟩ := exists_of_bind_eq_ok found
    cases found
    intro step mem
    exact (List.mem_append.mp mem).elim (ihl unsortedLeft left step)
      (ihr unsortedRight right step)
  | _ =>
    intro filled _ found step mem
    cases found
    cases mem

end Query

namespace Rewrite

/-- No standard rule has a sort step on its right side. -/
theorem Standard.unsorted_destination : ∀ pass ∈ Standard.passes, ∀ rule ∈ pass.rules,
    rule.destination.unsorted = true := by
  decide

/-- Rewriting brings in no sort step. -/
theorem Standard.orders_subset_of_rewrites {pass : Pass} (standard : pass ∈ Standard.passes)
    {q q' : Query} (rewriting : pass.Rewrites q q') : q'.orders ⊆ q.orders := by
  induction rewriting with
  | refl => exact List.Subset.refl _
  | trans _ _ first second => exact List.Subset.trans second first
  | rule rewritten _ =>
    obtain ⟨rule, mem, applied⟩ := exists_of_firstRewrite? rewritten
    obtain ⟨bindings, matched, filled⟩ := Rule.rewrite?_eq_some applied
    intro step here
    obtain ⟨number, x, found, inside⟩ :=
      Query.exists_of_fill (Standard.unsorted_destination pass standard rule mem) filled step here
    -- a placeholder stands for the query that the rule was applied to, or for a part of it
    rcases (Query.binding_of_matchAgainst matched).origin number x found with before | rfl | below
    · cases before
    · exact inside
    · exact Query.orders_subset_of_below below inside
  | hoist => exact List.subset_cons_self _ _
  | inside at_i _ ih => exact Query.orders_subset_setChild at_i ih

/-- Sort steps at the top and below them. -/
theorem orders_splitSorts (q : Query) : q.splitSorts.1 ++ q.splitSorts.2.orders = q.orders := by
  induction q with
  | sort order c ih => exact congrArg (order :: ·) ih
  | _ => rfl

/-- **Optimization brings in no sort step**: those that are applied in the end, and those that are
left below them, are steps of the query. -/
theorem orders_subset_optimize {maxRewrites : Nat} {q : Query} {u : Optimized}
    {log log' : List Notice} (found : optimize maxRewrites q log = .ok u log') :
    u.steps.1.orders ⊆ q.orders ∧ u.steps.2 ⊆ q.orders := by
  have hoisted : u.hoisted.orders ⊆ q.orders := by
    rw [hoisted_optimize found]
    exact List.Subset.trans (List.reverse_subset.mpr (List.Subset.refl _)) (List.take_subset _ _)
  obtain ⟨notices, taken, c, -, rfl, rest⟩ := optimize_eq_ok_iff.mp found
  have left : c.orders ⊆ q.orders :=
    rest.related (R := fun q q' => q'.orders ⊆ q.orders) (fun _ => List.Subset.refl _)
      (fun first second => List.Subset.trans second first)
      fun _ standard _ _ => Standard.orders_subset_of_rewrites standard
  obtain ⟨top, below⟩ := List.append_subset.mp (orders_splitSorts c ▸ left)
  exact ⟨below, List.append_subset.mpr ⟨List.reverse_subset.mpr top, hoisted⟩⟩

end Rewrite

end ExtentQuery
