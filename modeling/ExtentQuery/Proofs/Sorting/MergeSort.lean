import ExtentQuery.Proofs.Sorting.Permutations
import Mathlib.Data.Nat.Basic

/-!
# The bottom-up merge sort is a stable sort

* `Stacked` — runs each of which is sorted and came before the later ones;
* `Stacked.mergePass`, `Stacked.mergePasses` — one pass, and all of them;
* `sorts_mergeSort` — positions in the order of a merge sort.

**Fewer runs, same places.**  A pass joins neighbours only, so a run always came before the later
ones.  The last pass leaves one run, which has everything.
-/

namespace ExtentQuery.Sorting

variable {α : Type} {cmp : Comparison α} {before : α → α → Prop} {runs : List (List α)}

/-- Whether runs are sorted, each of them ahead of the later ones. -/
structure Stacked (cmp : Comparison α) (before : α → α → Prop) (runs : List (List α)) : Prop where
  ordered : ∀ run ∈ runs, run.Pairwise (Leads cmp before)
  ahead : runs.Pairwise (Ahead before)

/-- Runs of one item each. -/
theorem stacked_singletons {xs : List α} (came : xs.Pairwise before) :
    Stacked cmp before (xs.map fun x => [x]) where
  ordered run mem := by
    obtain ⟨x, -, rfl⟩ := List.mem_map.mp mem
    exact List.pairwise_singleton _ x
  ahead := by
    refine List.pairwise_map.mpr (came.imp fun {x y} earlier a mem b mem' => ?_)
    rw [List.mem_singleton.mp mem, List.mem_singleton.mp mem']
    exact earlier

theorem Stacked.sublist {runs' : List (List α)} (stacked : Stacked cmp before runs)
    (sublist : runs'.Sublist runs) : Stacked cmp before runs' :=
  ⟨fun run mem => stacked.ordered run (sublist.subset mem), stacked.ahead.sublist sublist⟩

section Stable

variable [Std.TransCmp cmp] [IsTrans α before]

theorem Stacked.sorts (stacked : Stacked cmp before runs) :
    Sorts cmp before runs.flatten (mergeRuns cmp runs) :=
  sorts_mergeRuns stacked.ordered stacked.ahead

/-- A pass merges groups of neighbouring runs. -/
theorem Stacked.mergePass (stacked : Stacked cmp before runs) (extra : Nat) :
    Stacked cmp before (mergePass cmp extra runs) := by
  have whole := flatten_groups (extra + 1) runs
  refine ⟨fun run mem => ?_, List.pairwise_map.mpr ?_⟩
  · obtain ⟨group, here, rfl⟩ := List.mem_map.mp mem
    have inside : group.Sublist runs := by
      have sublist := List.sublist_flatten_of_mem here
      rwa [whole] at sublist
    exact (stacked.sublist inside).sorts.ordered
  · have ahead := stacked.ahead
    rw [← whole, List.pairwise_flatten] at ahead
    refine ahead.2.imp fun {left right} between => ?_
    have apart : Ahead before left.flatten right.flatten := by
      intro x mem y mem'
      obtain ⟨run, here, inRun⟩ := List.mem_flatten.mp mem
      obtain ⟨run', here', inRun'⟩ := List.mem_flatten.mp mem'
      exact between run here run' here' x inRun y inRun'
    exact apart.of_perm (mergeRuns_perm cmp left) (mergeRuns_perm cmp right)

/-- When the passes end, one run is left. -/
theorem Stacked.mergePasses (stacked : Stacked cmp before runs) (extra : Nat) :
    (mergePasses cmp extra runs).flatten.Pairwise (Leads cmp before) := by
  induction runs using Sorting.mergePasses.induct cmp extra with
  | case1 runs several ih =>
    rw [Sorting.mergePasses, dif_pos several]
    exact ih (stacked.mergePass extra)
  | case2 runs single =>
    rw [Sorting.mergePasses, dif_neg single]
    rcases runs with _ | ⟨run, _ | ⟨next, rest⟩⟩
    · exact .nil
    · rw [List.flatten_singleton]
      exact stacked.ordered run List.mem_cons_self
    · exact absurd (Nat.succ_lt_succ (Nat.succ_pos rest.length)) single

end Stable

/-- The positions in the order of a merge sort are those of a stable sort. -/
theorem sorts_mergeSort (fanIn length : Nat) (cmp : Comparison Nat) [Std.TransCmp cmp] :
    Sorts cmp (· < ·) (List.range length) (mergeSort fanIn length cmp) where
  perm := mergeSort_perm fanIn length cmp
  ordered := (stacked_singletons List.pairwise_lt_range).mergePasses (fanIn - 2)

end ExtentQuery.Sorting
