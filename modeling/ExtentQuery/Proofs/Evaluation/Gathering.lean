import ExtentQuery.Proofs.Backend.Runs
import ExtentQuery.Proofs.Evaluation.Concatenation
import ExtentQuery.Proofs.Evaluation.Rearranging
import ExtentQuery.Proofs.Evaluation.Selections
import ExtentQuery.Proofs.Rewriting.Provenance

/-!
# What a query lists, and how often

A query of conditions may be sorted in several ways, and concatenated.  This module leaves open in
which order it is answered, and says which entities the answer lists, and how often.

* `Query.selective` — queries of conditions, with sort steps and concatenations anywhere;
* `Rows.Gathered` — rows of the entities that are admitted, perhaps none of them twice;
* `Session.Obtains` — computations that leave selections waiting for their evaluation;
* `Session.obtains_evaluate`, `Session.obtains_answer` — queries that are evaluated as they are, and
  queries that are optimized and answered.

**Concatenations.**  Operands that commute may be exchanged in what is remembered, and the operands
of an intersection count differently: it is the left one that says how often an entity is listed.
So with concatenations it is only known which entities are listed.
-/

namespace ExtentQuery

open Effect
open Rewrite (Optimized)

/-! ### Queries of conditions -/

/-- Alike steps sort by the same property of the entities, if they do. -/
theorem PropertyOrder.ofStep?_of_alike {step step' : SortStep} (alike : step.Alike step') :
    ofStep? step = ofStep? step' := by
  cases step <;> cases step' <;> first
    | rfl
    | cases alike
  all_goals rfl

namespace Query

variable {a b q : Query}

/-- Whether all leaves of a query are conditions other than ranges.  Sort steps and concatenations
may stand anywhere. -/
def selective (q : Query) : Bool :=
  (Interpretation.allLeaves (isLookUp fun _ _ => false) true).of q

theorem legible_of_selective (selective : q.selective = true) : q.legible = true := by
  rw [← allLeaves_legible]
  exact Interpretation.allLeaves_mono (fun _ => legible_of_isLookUp) selective

theorem spansTypes_of_selective (selective : q.selective = true) : q.spansTypes = false :=
  spansTypes_of_allLeaves (Interpretation.allLeaves_mono (fun _ => not_spansTypes_of_isLookUp)
    selective)

/-- A query that looks at one type at a time has no concatenations. -/
theorem orderly_of_typeLocal (selective : q.selective = true) (typeLocal : q.typeLocal = true) :
    q.orderly = true := by
  rw [Query.selective, ← Interpretation.allNodes_true] at selective
  rw [← allNodes_typeLocal] at typeLocal
  exact Interpretation.allNodes_of_both (fun _ _ lookUp _ => lookUp) (fun sorted _ => sorted)
    (fun _ unjoined => unjoined) selective typeLocal

/-- The order of operands does not show in which properties the entities are sorted by. -/
theorem map_ofStep?_of_commuted (commuted : a.Commuted b) :
    (a.orders.map PropertyOrder.ofStep?).Perm (b.orders.map PropertyOrder.ofStep?) := by
  induction commuted with
  | refl | linkedInto => exact .refl _
  | trans _ _ first second => exact first.trans second
  | inter_comm | union_comm =>
    simp only [orders, List.map_append]
    exact List.perm_append_comm
  | root _ ih | compl _ ih => exact ih
  | inter _ _ ihl ihr | union _ _ ihl ihr | diff _ _ ihl ihr | concat _ _ ihl ihr =>
    simp only [orders, List.map_append]
    exact ihl.append ihr
  | sort alike _ ih =>
    simp only [orders, List.map_cons, PropertyOrder.ofStep?_of_alike alike]
    exact ih.cons _

end Query

/-! ### Rows of what is admitted -/

/-- Whether rows list the entities that are admitted, none of them twice if they are to be listed
singly, and are not taken to be in the order of identities unless they are. -/
structure Rows.Gathered (single : Prop) (admitted : EntityId → Bool) (rows : Rows) : Prop where
  contains : ∀ id, rows.ids.contains id = admitted id
  truthful : rows.Truthful
  nodup : single → rows.ids.Nodup

namespace Rows

variable {single single' : Prop} {admitted admitted' : EntityId → Bool} {rows rows' : Rows}

theorem Gathered.congr (gathered : rows.Gathered single admitted) (fewer : single' → single)
    (same : ∀ id, admitted id = admitted' id) : rows.Gathered single' admitted' :=
  ⟨fun id => (gathered.contains id).trans (same id), gathered.truthful,
    fun isSingle => gathered.nodup (fewer isSingle)⟩

theorem Gathered.of_rearranged (gathered : rows.Gathered single admitted)
    (rearranged : rows.Rearranged rows') : rows'.Gathered single admitted where
  contains id := rearranged.perm.contains_eq.trans (gathered.contains id)
  truthful := rearranged.truthful
  nodup isSingle := rearranged.perm.nodup_iff.mpr (gathered.nodup isSingle)

end Rows

namespace Session

variable {session : Session} {type : String} {q l r : Query} {rows left right : Rows}
  {single single' : Prop} {f g : EntityId → Bool} {nested : Engine.Nested}

/-- What comes of an operation is not taken to be in the order of identities unless it is. -/
theorem yields_combine_rows_truthful (operation : SetOperation) (truthful : left.Truthful)
    (truthful' : right.Truthful) :
    session.Yields (session.engine.combine operation left right) Rows.Truthful := by
  have inMemory : session.Yields (do
      let l ← left.collect
      let r ← right.collect
      Rows.ofIds (operation.apply l r)) Rows.Truthful :=
    yields_bind_done (yields_collect left).done fun _ =>
      yields_bind_done (yields_collect right).done fun _ =>
        (yields_ofIds _).mono fun _ made => made.2
  unfold Engine.combine
  split
  case h_1 decided =>
    refine yields_pure ?_
    rcases Engine.eq_of_shortcut decided with rfl | rfl | rfl
    · exact fun _ => ascending_nil
    · exact truthful
    · exact truthful'
  case h_2 =>
    refine yields_bind ?_ fun rows known => yields_bind_done (yields_countWork _) fun _ =>
      yields_pure known
    cases left with
    | native left =>
      cases right with
      | native right =>
        exact yields_bind (yields_combine_truthful operation truthful truthful') fun _ known =>
          yields_pure known
      | empty | computed => exact inMemory
    | empty | computed => exact inMemory

/-- Rows that are combined list no entity twice if both operands do not, unless they are put one
after the other. -/
theorem yields_combine_gathered (operation : SetOperation) (gathered : left.Gathered single f)
    (gathered' : right.Gathered single' g) :
    session.Yields (session.engine.combine operation left right)
      (Rows.Gathered (operation ≠ .concat ∧ single ∧ single')
        fun id => operation.truth (f id) (g id)) := by
  refine ((yields_combine operation left right).and
    (yields_combine_rows_truthful operation gathered.truthful gathered'.truthful)).mono ?_
  rintro rows ⟨combines, truthful⟩
  refine ⟨fun id => ?_, truthful, fun ⟨other, isSingle, isSingle'⟩ => ?_⟩
  · rw [combines.contains id, gathered.contains id, gathered'.contains id]
  · exact (combines.distinct other ⟨gathered.nodup isSingle, gathered.truthful⟩
      ⟨gathered'.nodup isSingle', gathered'.truthful⟩).nodup

/-! ### Computations that leave selections waiting -/

/-- Whether a computation, in a state in which selections wait for their evaluation, leaves them
waiting and yields what has a property. -/
def Obtains (session : Session) (waiting : List (Nat × Query)) {α : Type} (x : Effect α)
    (P : α → Prop) : Prop :=
  ∀ ⦃s : State⦄ ⦃a : α⦄ ⦃s' : State⦄, session.Awaits s waiting → x s = .ok a s' →
    session.Awaits s' waiting ∧ P a

section Obtains

variable {waiting : List (Nat × Query)} {α β : Type} {x : Effect α} {P Q : α → Prop}
  {steps : List SortStep} {stamp : Nat} {extent : Effect Rows}

theorem Obtains.mono (obtains : session.Obtains waiting x P) (weaker : ∀ a, P a → Q a) :
    session.Obtains waiting x Q := fun _ _ _ awaits ran =>
  ⟨(obtains awaits ran).1, weaker _ (obtains awaits ran).2⟩

theorem obtains_pure {a : α} (holds : P a) : session.Obtains waiting (pure a) P := by
  rintro s _ _ awaits ⟨⟩
  exact ⟨awaits, holds⟩

theorem Obtains.bind {f : α → Effect β} {R : β → Prop} (first : session.Obtains waiting x P)
    (rest : ∀ a, P a → session.Obtains waiting (f a) R) : session.Obtains waiting (x >>= f) R := by
  intro s b s' awaits ran
  obtain ⟨a, s₁, ran, continued⟩ := Effect.exists_of_bind ran
  obtain ⟨awaits₁, holds⟩ := first awaits ran
  exact rest a holds awaits₁ continued

/-- What changes counts and stamps only leaves selections waiting. -/
theorem obtains_of_quiet (yields : session.Yields x P) (quiet : Quiet x) :
    session.Obtains waiting x P := by
  intro s a s' awaits ran
  obtain ⟨reached, holds⟩ := yields awaits.sound.reached ran
  exact ⟨awaits.of_sameMemory (quiet.remembersNothing ran) reached, holds⟩

theorem obtains_counted {rows : Rows} {P : Rows → Prop} (work : Work) (holds : P rows) :
    session.Obtains waiting
      (do
        countWork work
        return rows) P :=
  obtains_of_quiet (yields_bind_done (yields_countWork work) fun _ => yields_pure holds)
    ((quiet_countWork work).bind fun _ => quiet_pure rows)

theorem obtains_optimize (legible : q.legible = true) :
    session.Obtains waiting (session.engine.optimize q) (session.Optimizes q) := by
  intro s optimized s' awaits ran
  obtain ⟨sound, optimizes, memo, grows⟩ := awaits.sound.optimize legible ran
  refine ⟨⟨sound, fun entry mem => ⟨?_, ?_⟩, awaits.single⟩, optimizes⟩
  · exact Nat.lt_of_lt_of_le (awaits.fits entry mem).handedOut grows
  · rw [memo]
    exact (awaits.fits entry mem).decided

theorem obtains_optimizeOnce (legible : q.legible = true) (mem : (stamp, q) ∈ waiting) :
    session.Obtains waiting (session.engine.optimizeOnce stamp q) (session.Optimizes q) := by
  intro s optimized s' awaits ran
  obtain ⟨sound, optimizes, others⟩ :=
    awaits.sound.optimizeOnce legible (awaits.fits _ mem) ran
  refine ⟨⟨sound, fun entry here => ?_, awaits.single⟩, optimizes⟩
  exact others _ _ (awaits.fits entry here) fun same => awaits.single entry here _ mem same

theorem obtains_combine (operation : SetOperation) (gathered : left.Gathered single f)
    (gathered' : right.Gathered single' g) :
    session.Obtains waiting (session.engine.combine operation left right)
      (Rows.Gathered (operation ≠ .concat ∧ single ∧ single')
        fun id => operation.truth (f id) (g id)) :=
  obtains_of_quiet (yields_combine_gathered operation gathered gathered')
    (quiet_combine operation left right)

/-! ### Sort steps -/

theorem quiet_sort (step : SortStep) (rows : Rows) :
    Quiet (session.engine.sort extent type step (some rows)) := by
  cases step with
  | property name ascending => exact quiet_sortProperty type name (some rows) ascending
  | linkedProperty targetType property link ascending =>
    exact (quiet_pure rows).bind fun rows =>
      quiet_sortLinked targetType property type link rows ascending
  | key number label key ascending =>
    exact (quiet_pure rows).bind fun rows => quiet_sortKeyed rows key ascending

theorem quiet_sortRows (steps : List SortStep) (rows : Rows) :
    Quiet (session.engine.sortRows extent type steps rows) :=
  composes_quiet.of_foldlM (fun rows step => quiet_sort step rows) steps rows

/-- Sort steps leave open which entities are listed how often. -/
theorem obtains_sortRows (treelike : session.Treelike type steps)
    (gathered : rows.Gathered single f) :
    session.Obtains waiting (session.engine.sortRows extent type steps rows)
      (Rows.Gathered single f) :=
  (obtains_of_quiet (yields_sortRows_rearranged treelike gathered.truthful)
    (quiet_sortRows steps rows)).mono fun _ => gathered.of_rearranged

/-- A sort step over the whole extent, given that the extent is answered. -/
theorem obtains_sort_extent {step : SortStep} (treelike : session.Treelike type [step])
    (whole : session.Obtains waiting extent (Rows.Gathered True (session.admits type .all))) :
    session.Obtains waiting (session.engine.sort extent type step none)
      (Rows.Gathered True (session.admits type .all)) := by
  cases step with
  | property name ascending =>
    obtain ⟨names, tree⟩ := treelike _ List.mem_cons_self rfl
    refine (obtains_of_quiet (yields_sortProperty_extent tree)
      (quiet_sortProperty type name none ascending)).mono ?_
    rintro rows ⟨distinct, mem_iff⟩
    refine ⟨fun id => ?_, distinct.truthful, fun _ => distinct.nodup⟩
    rw [Bool.eq_iff_iff, List.contains_iff_mem, mem_iff]
    exact ⟨admits_all, inHierarchy_of_admits⟩
  | linkedProperty targetType property link ascending =>
    exact whole.bind fun rows gathered =>
      (obtains_of_quiet (yields_sortLinked_rearranged targetType property type link rows ascending)
        (quiet_sortLinked targetType property type link rows ascending)).mono
          fun _ => gathered.of_rearranged
  | key number label key ascending =>
    exact whole.bind fun rows gathered =>
      (obtains_of_quiet (yields_sortKeyed_rearranged rows key ascending)
        (quiet_sortKeyed rows key ascending)).mono fun _ => gathered.of_rearranged

theorem obtains_sortExtent (treelike : session.Treelike type steps)
    (whole : session.Obtains waiting extent (Rows.Gathered True (session.admits type .all))) :
    session.Obtains waiting (session.engine.sortExtent extent type steps)
      (Rows.Gathered True (session.admits type .all)) := by
  cases steps with
  | nil => exact whole
  | cons step steps =>
    have one : session.Treelike type [step] :=
      treelike.subset (List.cons_subset_cons _ (List.nil_subset _))
    exact (obtains_sort_extent one whole).bind fun _ gathered =>
      obtains_sortRows (treelike.subset (List.subset_cons_self _ _)) gathered

/-! ### Queries -/

/-- Conditions that look at one type at a time. -/
theorem obtains_evaluate_local (orderly : q.orderly = true) (unsorted : q.unsorted = true) :
    session.Obtains waiting (session.engine.evaluate nested q type)
      (Rows.Gathered (q.orderly = true) (session.admits type q)) := by
  have unranged := Query.unranged_of_conditional (Query.conditional_of_orderly orderly unsorted)
  refine (obtains_of_quiet (yields_evaluate_standing [] orderly unsorted)
    (quiet_evaluate unranged type)).mono fun rows standing => ?_
  have sifted := sifted_of_standing standing
  exact ⟨sifted.contains, sifted.distinct.truthful, fun _ => sifted.distinct.nodup⟩

/-- A query that is evaluated as it is lists what it admits, no entity twice unless there are
concatenations. -/
theorem obtains_evaluate (selective : q.selective = true)
    (treelike : session.Treelike type q.orders) :
    session.Obtains waiting (session.engine.evaluate nested q type)
      (Rows.Gathered (q.orderly = true) (session.admits type q)) := by
  have ways : ∀ {q : Query}, q.selective = true →
      session.Obtains waiting (session.engine.evaluateApart nested q type)
        (Rows.Gathered (q.orderly = true) (session.admits type q)) →
      session.Obtains waiting (session.engine.evaluate nested q type)
        (Rows.Gathered (q.orderly = true) (session.admits type q)) := by
    intro q selective apart
    by_cases typeLocal : q.typeLocal = true
    · exact obtains_evaluate_local (Query.orderly_of_typeLocal selective typeLocal)
        (Query.unsorted_of_typeLocal typeLocal)
    · rw [Engine.evaluate_eq,
        if_neg (Bool.eq_false_iff.mp (Query.spansTypes_of_selective selective)), if_neg typeLocal]
      exact apart
  have combined : ∀ {operation : SetOperation} {l r : Query} {left right : Rows},
      operation ≠ .concat →
      left.Gathered (l.orderly = true) (session.admits type l) →
      right.Gathered (r.orderly = true) (session.admits type r) →
      session.Obtains waiting (session.engine.combine operation left right)
        (Rows.Gathered ((l.orderly && r.orderly) = true)
          (session.admits type (Engine.joinedQuery operation l r))) :=
    fun {operation l r _ _} other gathered gathered' =>
      (obtains_combine operation gathered gathered').mono fun _ both =>
        both.congr (fun orderly => ⟨other, (Bool.and_eq_true _ _).mp orderly⟩) fun id =>
          (admits_joinedQuery operation l r).symm
  induction q with
  | root c ih => exact ways selective (ih selective treelike)
  | inter l r ihl ihr | union l r ihl ihr =>
    obtain ⟨selectiveLeft, selectiveRight⟩ := (Bool.and_eq_true _ _).mp selective
    obtain ⟨treelikeLeft, treelikeRight⟩ := treelike_append.mp treelike
    exact ways selective ((ihl selectiveLeft treelikeLeft).bind fun left gathered =>
      (ihr selectiveRight treelikeRight).bind fun right gathered' =>
        combined (by decide) gathered gathered')
  | concat l r ihl ihr =>
    obtain ⟨selectiveLeft, selectiveRight⟩ := (Bool.and_eq_true _ _).mp selective
    obtain ⟨treelikeLeft, treelikeRight⟩ := treelike_append.mp treelike
    refine ways selective ((ihl selectiveLeft treelikeLeft).bind fun left gathered =>
      (ihr selectiveRight treelikeRight).bind fun right gathered' =>
        (obtains_combine .concat gathered gathered').mono fun _ both =>
          both.congr nofun fun id => (admits_joinedQuery .concat l r).symm)
  | diff l r ihl ihr =>
    obtain ⟨selectiveLeft, selectiveRight⟩ := (Bool.and_eq_true _ _).mp selective
    obtain ⟨treelikeLeft, treelikeRight⟩ := treelike_append.mp treelike
    refine ways selective ((ihl selectiveLeft treelikeLeft).bind fun left gathered => ?_)
    split
    case isTrue empty =>
      -- the right side is not even evaluated
      obtain rfl := Rows.eq_empty_of_knownEmpty empty
      refine obtains_pure ⟨fun id => ?_, fun _ => ascending_nil, fun _ => List.nodup_nil⟩
      rw [show session.admits type (.diff l r) id = _ from admits_joinedQuery .diff l r,
        ← gathered.contains id]
      rfl
    case isFalse =>
      exact (ihr selectiveRight treelikeRight).bind fun right gathered' =>
        combined (by decide) gathered gathered'
  | compl c ih =>
    have all : session.Obtains waiting (session.engine.evaluate nested .all type)
        (Rows.Gathered (Query.all.orderly = true) (session.admits type .all)) :=
      obtains_evaluate_local rfl rfl
    have restricts : SetOperation.diff ≠ .concat := by decide
    exact ways selective (all.bind fun left gathered => (ih selective treelike).bind
      fun right gathered' => combined restricts gathered gathered')
  | sort order c ih =>
    have one : session.Treelike type [order] :=
      treelike.subset (List.cons_subset_cons _ (List.nil_subset _))
    have rest : session.Treelike type c.orders := treelike.subset (List.subset_cons_self _ _)
    exact ways selective ((ih selective rest).bind fun rows gathered =>
      (obtains_of_quiet (yields_sort_rearranged one rows) (quiet_sort order rows)).mono
        fun _ => gathered.of_rearranged)
  | linksFrom | custom | slot | converter | linkedInto | between => cases selective
  | _ => exact obtains_evaluate_local selective rfl

/-! ### Optimized queries -/

/-- What is known of an optimized query and of the sort steps that are taken off it. -/
structure Distilled (session : Session) (type : String) (q body : Query) (steps : List SortStep) :
    Prop where
  selective : body.selective = true
  orderly : q.orderly = true → body.orderly = true
  treelike : session.Treelike type (steps ++ body.orders)
  admits : ∀ id, session.admits type body id = session.admits type q id

theorem Treelike.of_commuted {q' : Query} (treelike : session.Treelike type q.orders)
    (commuted : q'.Commuted q) : session.Treelike type q'.orders := by
  intro step mem byProperty
  obtain ⟨step', mem', same⟩ := List.mem_map.mp
    ((Query.map_ofStep?_of_commuted commuted).subset (List.mem_map_of_mem mem))
  exact treelike step' mem' (same ▸ byProperty)

theorem distilled_of_optimizes {optimized : Optimized} (selective : q.selective = true)
    (treelike : session.Treelike type q.orders) (optimizes : session.Optimizes q optimized) :
    session.Distilled type q optimized.steps.1 optimized.steps.2 := by
  have admits : ∀ id, session.admits type optimized.steps.1 id = session.admits type q id :=
    fun id => (admits_splitSorts _ id).trans (admits_of_optimizes optimizes)
  obtain ⟨q', notices, commuted, found⟩ := optimizes
  have invariant := leafInvariant_isLookUp fun _ _ => false
  obtain ⟨below, above⟩ := Rewrite.orders_subset_optimize found
  refine ⟨?_, fun orderly => ?_, ?_, admits⟩
  · exact (Query.allLeaves_splitSorts _ _).trans
      (Rewrite.optimize_allLeaves invariant found
        ((allLeaves_of_commuted commuted).trans selective))
  · exact Query.orderly_splitSorts
      (Rewrite.optimize_allNodes invariant found
        ((Query.orderly_of_commuted commuted).trans orderly))
  · exact (treelike.of_commuted commuted).subset (List.append_subset.mpr ⟨above, below⟩)

/-- An optimized query, answered, given that the whole extent is. -/
theorem obtains_answerOptimized {optimized : Optimized}
    (distilled : session.Distilled type q optimized.steps.1 optimized.steps.2)
    (whole : session.Obtains waiting (nested type .all)
      (Rows.Gathered True (session.admits type .all))) :
    session.Obtains waiting (session.engine.answerOptimized nested type optimized)
      (Rows.Gathered (q.orderly = true) (session.admits type q)) := by
  obtain ⟨selective, orderly, treelike, admits⟩ := distilled
  unfold Engine.answerOptimized
  generalize optimized.steps = result at selective orderly treelike admits ⊢
  obtain ⟨body, steps⟩ := result
  simp only at selective orderly treelike admits ⊢
  split
  case h_1 step steps =>
    refine (obtains_sortExtent (treelike_append.mp treelike).1 whole).bind fun rows gathered => ?_
    exact obtains_counted _ (gathered.congr (fun _ => trivial) admits)
  case h_2 =>
    obtain ⟨above, below⟩ := treelike_append.mp treelike
    refine (obtains_evaluate selective below).bind fun rows gathered => ?_
    refine (obtains_sortRows above gathered).bind fun sorted gathered => ?_
    exact obtains_counted _ (gathered.congr orderly admits)

/-- A query that is optimized and answered, however many levels of queries there may be in it. -/
theorem obtains_answerWithin (levels : Nat) {type : String} {q : Query}
    (selective : q.selective = true) (treelike : session.Treelike type q.orders) :
    session.Obtains waiting (session.engine.answerWithin levels type q)
      (Rows.Gathered (q.orderly = true) (session.admits type q)) := by
  induction levels generalizing type q with
  | zero =>
    intro s rows s' _ ran
    cases ran
  | succ levels ih =>
    refine (obtains_optimize (Query.legible_of_selective selective)).bind
      fun optimized optimizes => ?_
    refine obtains_answerOptimized (distilled_of_optimizes selective treelike optimizes) ?_
    exact (ih (q := .all) rfl nofun).mono fun _ gathered =>
      gathered.congr (fun _ => rfl) fun _ => rfl

theorem obtains_answer (selective : q.selective = true)
    (treelike : session.Treelike type q.orders) :
    session.Obtains waiting (session.engine.answer type q)
      (Rows.Gathered (q.orderly = true) (session.admits type q)) :=
  obtains_answerWithin _ selective treelike

end Obtains

end Session

end ExtentQuery
