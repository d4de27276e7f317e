import ExtentQuery.Proofs.Evaluation.Exactness
import ExtentQuery.Proofs.Evaluation.Traces

/-!
# The two ways never disagree

An engine may be asked to compare the shortcut for links with the direct way whenever it takes the
shortcut, and to report where they disagree.  It has nothing to report: both ways filter the same
source, which lists entities of exactly one type, and they keep the same ones of them.

* `Notices.Concurring` — a log to which no such report was added;
* `Session.Concurs` — computations that add none, also if they fault;
* `Session.concurs_traceLinks` — comparing the two ways for a source of exactly one type;
* `Session.concurs_answer` — answering any query, with whatever queries are within it.

**Where sources come from.**  A source is narrowed by links only where a query is evaluated for
exactly one type.  That happens to queries all of whose parts look at one type at a time, and to
queries that range over every type, which hold no such source.
-/

namespace ExtentQuery

open Effect
open Rewrite (Optimized)

/-! ### Logs of notices -/

/-- Whether a notice says that the shortcut for links and the direct way disagree. -/
def Notice.tellsMismatch : Notice → Bool
  | linksMismatchInSize .. => true
  | linksMismatchAt .. => true
  | _ => false

namespace Notices

/-- Whether a later log has no more reports of a disagreement. -/
def Concurring (log log' : List Notice) : Prop :=
  ∃ notices, log' = log ++ notices ∧ ∀ notice ∈ notices, notice.tellsMismatch = false

theorem Concurring.refl (log : List Notice) : Concurring log log :=
  ⟨[], (List.append_nil log).symm, nofun⟩

theorem Concurring.trans {log log₁ log₂ : List Notice} (first : Concurring log log₁)
    (second : Concurring log₁ log₂) : Concurring log log₂ := by
  obtain ⟨notices, rfl, none⟩ := first
  obtain ⟨notices', rfl, none'⟩ := second
  refine ⟨notices ++ notices', List.append_assoc .., fun notice mem => ?_⟩
  rcases List.mem_append.mp mem with mem | mem
  · exact none notice mem
  · exact none' notice mem

theorem concurring_report {notice : Notice} (other : notice.tellsMismatch = false)
    (log : List Notice) : Concurring log (log ++ [notice]) :=
  ⟨[notice], rfl, fun _ mem => List.mem_singleton.mp mem ▸ other⟩

end Notices

open Notices

/-- A query that ranges over every type does not select what is linked into other entities. -/
theorem Query.linkedTargets?_of_spansTypes {q : Query} (spans : q.spansTypes = true) :
    q.linkedTargets? = none := by
  cases q with
  | linkedInto => cases spans
  | _ => rfl

/-! ### Rewriting -/

namespace Rewrite

/-- Passes report nothing but budgets that are used up. -/
theorem concurring_runPasses (maxRewrites : Nat) (passes : List Pass) :
    ∀ current log, Concurring log (final (runPasses maxRewrites passes current) log) := by
  induction passes with
  | nil => exact fun _ log => .refl log
  | cons pass passes ih =>
    intro current log
    cases run : pass.run ⟨current.query, current.hoisted, maxRewrites⟩ with
    | error fault =>
      simp only [runPasses, run]
      exact .refl log
    | ok last =>
      have continued : final (runPasses maxRewrites (pass :: passes) current) log
          = final (runPasses maxRewrites passes ⟨last.query, last.hoisted⟩)
            (log ++ budgetNotices pass maxRewrites last) := by
        rw [final, final, runPasses_cons run]
      rw [continued]
      refine Concurring.trans ?_ (ih _ _)
      unfold budgetNotices
      split
      · exact concurring_report rfl log
      · exact ⟨[], rfl, List.forall_mem_nil _⟩

/-- Rounds report nothing but that they did not come to an end. -/
theorem concurring_runRounds (maxRewrites rounds : Nat) :
    ∀ current log, Concurring log (final (runRounds maxRewrites rounds current) log) := by
  induction rounds with
  | zero => exact fun _ log => .refl log
  | succ rounds ih =>
    intro current log
    have round := concurring_runPasses maxRewrites Standard.passes current log
    unfold runRounds
    rcases final_bind (runPasses maxRewrites Standard.passes current) _ log with
      stopped | ⟨next, log₁, ran, continued⟩
    · rw [stopped]
      exact round
    · rw [continued]
      rw [final_of_ok ran] at round
      refine round.trans ?_
      split
      · exact .refl log₁
      · by_cases last : rounds = 0
        · simp only [if_pos last]
          have reported : Concurring log₁ (log₁ ++ [.noFixpoint maxRounds]) :=
            concurring_report rfl log₁
          exact reported.trans (ih next _)
        · simp only [if_neg last]
          exact ih next log₁

theorem concurring_optimize (maxRewrites : Nat) (q : Query) (log : List Notice) :
    Concurring log (final (optimize maxRewrites q) log) := by
  have rounds := concurring_runRounds maxRewrites maxRounds ⟨.root q, .empty⟩ log
  rcases final_bind (runRounds maxRewrites maxRounds ⟨.root q, .empty⟩)
      (fun last => pure { last with query := unroot last.query }) log with
    stopped | ⟨last, log₁, ran, continued⟩
  · exact stopped ▸ rounds
  · rw [final_of_ok ran] at rounds
    exact continued ▸ rounds

end Rewrite

namespace Session

variable {session : Session}

/-! ### Rules -/

/-- Whether a computation of a session reports no disagreement, in whichever state it starts and
whether it answers or faults. -/
def Concurs (session : Session) {α : Type} (x : Effect α) : Prop :=
  ∀ s, session.Reaches s → Concurring s.notices (final x s).notices

section Rules

variable {α β : Type} {x : Effect α}

theorem concurs_of_quiet (quiet : Quiet x) : session.Concurs x := by
  intro s _
  rw [(quiet s).notices]
  exact .refl _

theorem concurs_pure (a : α) : session.Concurs (pure a : Effect α) :=
  concurs_of_quiet (quiet_pure a)

theorem Concurs.bind {f : α → Effect β} {P : α → Prop} (first : session.Concurs x)
    (yields : session.Yields x P) (rest : ∀ a, P a → session.Concurs (f a)) :
    session.Concurs (x >>= f) := by
  intro s reached
  have start := first s reached
  rcases final_bind x f s with stopped | ⟨a, s₁, ran, continued⟩
  · exact stopped ▸ start
  · rw [final_of_ok ran] at start
    obtain ⟨reached₁, holds⟩ := yields reached ran
    rw [continued]
    exact start.trans (rest a holds s₁ reached₁)

theorem concurs_mapM {f : α → Effect β} (l : List α) (each : ∀ a ∈ l, session.Concurs (f a))
    (yields : ∀ a ∈ l, session.Yields (f a) fun _ => True) : session.Concurs (l.mapM f) := by
  induction l with
  | nil => exact concurs_pure _
  | cons a l ih =>
    rw [List.mapM_cons]
    refine (each a List.mem_cons_self).bind (yields a List.mem_cons_self) fun b _ => ?_
    refine (ih (fun other mem => each other (.tail _ mem))
      fun other mem => yields other (.tail _ mem)).bind (P := fun _ => True) ?_ fun bs _ =>
        concurs_pure (b :: bs)
    exact (yields_mapM (R := fun _ _ => True) l fun other mem => yields other (.tail _ mem)).done

theorem concurs_foldlM {f : β → α → Effect β} (each : ∀ b a, session.Concurs (f b a))
    (yields : ∀ b a, session.Yields (f b a) fun _ => True) (l : List α) (b : β) :
    session.Concurs (l.foldlM f b) := by
  induction l generalizing b with
  | nil => exact concurs_pure b
  | cons a l ih =>
    rw [List.foldlM_cons]
    exact (each b a).bind (yields b a) fun b' _ => ih b'

end Rules

/-! ### Optimization -/

theorem concurs_optimizeNow (q : Query) : session.Concurs (session.engine.optimizeNow q) := by
  have concurring := Rewrite.concurring_optimize session.settings.maxRewrites q []
  have reported : ∀ notices : List Notice, (∀ notice ∈ notices, notice.tellsMismatch = false) →
      session.Concurs (notices.forM report) := by
    intro notices none s _
    rw [final_of_ok (forM_report notices s)]
    exact ⟨notices, rfl, none⟩
  have reports : ∀ notices : List Notice, session.Yields (notices.forM report) fun _ => True :=
    fun notices => yields_forM notices fun notice _ => yields_report notice
  unfold Engine.optimizeNow
  cases found : (Rewrite.optimize session.engine.settings.maxRewrites q).run [] with
  | error fault notices =>
    obtain ⟨_, rfl, none⟩ : Concurring [] notices := by
      rwa [final, show Rewrite.optimize session.settings.maxRewrites q [] = _ from found]
        at concurring
    exact (reported _ none).bind (reports _) fun _ _ => concurs_of_quiet (quiet_throw fault)
  | ok optimized notices =>
    obtain ⟨_, rfl, none⟩ : Concurring [] notices := by
      rwa [final, show Rewrite.optimize session.settings.maxRewrites q [] = _ from found]
        at concurring
    refine (reported _ none).bind (reports _) fun _ _ s _ => ?_
    exact .refl _

theorem concurs_optimize (q : Query) : session.Concurs (session.engine.optimize q) := by
  have counted : ∀ optimized : Optimized, session.Concurs (do
      countWork .optimization
      return optimized) := fun optimized =>
    concurs_of_quiet ((quiet_countWork _).bind fun _ => quiet_pure optimized)
  have lookUp : session.Concurs
      (modifyGet fun s : State => ((s.cache.find q).1, { s with cache := (s.cache.find q).2 }) :
        Effect (Option Optimized)) := fun s _ => .refl _
  refine lookUp.bind (yields_find q) fun found _ => ?_
  cases found with
  | none => exact (concurs_optimizeNow q).bind (yields_optimizeNow q) fun made _ => counted made
  | some optimized =>
    exact (concurs_pure optimized).bind (P := fun _ => True) (yields_pure trivial) fun here _ =>
      counted here

/-! ### Links -/

/-- Among entities of exactly one type, those that are found to be linked are those with a link
to any of the targets. -/
theorem filter_linked {type link : String} {targets : List EntityId} {source linked : Rows}
    (exact : session.Exact type source) (here : session.Linked type link targets linked) :
    source.ids.filter (linked.ids.contains ·) = source.ids.filter (session.store.linksInto link targets) := by
  refine List.filter_congr fun id mem => ?_
  obtain ⟨record, has⟩ := exact.typed id mem
  rw [here.contains has, has.linksInto]

/-- The direct way keeps the entities with a link to any of the targets, in the order of the
source. -/
theorem yields_directWay {type : String} {source : Rows} (exact : session.Exact type source)
    (link : String) (targets : Rows) :
    session.Yields (do
        let linked ← session.engine.linkedToAny type link targets
        session.engine.combine .inter source linked) fun rows =>
      rows.ids = source.ids.filter (session.store.linksInto link targets.ids) :=
  yields_bind (yields_linkedToAny type link targets) fun linked here =>
    (yields_combine .inter source linked).mono fun rows combines =>
      (combines.ids (by decide)).trans (filter_linked exact here)

/-- And so does the engine, whichever way it goes. -/
theorem yields_narrowByLinks_ids {type : String} {source : Rows}
    (exact : session.Exact type source) (link : String) (targets : Rows) :
    session.Yields (session.engine.narrowByLinks type link source targets) fun rows =>
      rows.ids = source.ids.filter (session.store.linksInto link targets.ids) := by
  unfold Engine.narrowByLinks
  split
  · rename_i s t
    refine yields_bind (yields_searchLinks s t link) fun found shortcut => ?_
    cases found with
    | some listing =>
      exact yields_bind_done (yields_traceLinks _ _ _ _ _) fun _ =>
        yields_pure (shortcut listing rfl).2
    | none => exact yields_directWay exact link (.native t)
  · refine yields_bind (P := (· = none)) (yields_pure rfl) ?_
    rintro _ rfl
    exact yields_directWay exact link targets

/-- A list agrees with itself. -/
theorem compareWays_self (link : String) (ids : List EntityId) :
    Engine.compareWays link ids ids = pure () := by
  have agree : ((ids.zip ids).zipIdx.find? fun entry => entry.1.1 != entry.1.2) = none := by
    refine List.find?_eq_none.mpr fun entry mem => ?_
    obtain ⟨-, -, here⟩ := List.mem_zipIdx mem
    rw [here, List.getElem_zip]
    simp
  unfold Engine.compareWays
  rw [if_neg (not_not_intro rfl), agree]

/-- The comparison reports nothing if the shortcut has kept the right entities. -/
theorem concurs_traceLinks {type link : String} {source targets found : Rows}
    (exact : session.Exact type source)
    (kept : found.ids = source.ids.filter (session.store.linksInto link targets.ids)) :
    session.Concurs (session.engine.traceLinks type link source targets found) := by
  unfold Engine.traceLinks
  split
  · refine (concurs_of_quiet (quiet_linkedToAny type link targets)).bind
      (yields_linkedToAny type link targets) fun linked here => ?_
    refine (concurs_of_quiet (quiet_combine .inter source linked)).bind
      (yields_combine .inter source linked) fun direct combines => ?_
    refine (concurs_of_quiet found.quiet_collect).bind (yields_collect found) ?_
    rintro shortcut rfl
    refine (concurs_of_quiet direct.quiet_collect).bind (yields_collect direct) ?_
    rintro ids rfl
    have same : direct.ids = found.ids :=
      ((combines.ids (by decide)).trans (filter_linked exact here)).trans kept.symm
    rw [same, compareWays_self]
    exact concurs_pure ()
  · exact concurs_pure ()

theorem concurs_narrowByLinks {type : String} {source : Rows} (exact : session.Exact type source)
    (link : String) (targets : Rows) :
    session.Concurs (session.engine.narrowByLinks type link source targets) := by
  have directWay : session.Concurs (do
      let linked ← session.engine.linkedToAny type link targets
      session.engine.combine .inter source linked) :=
    concurs_of_quiet ((quiet_linkedToAny type link targets).bind fun linked =>
      quiet_combine .inter source linked)
  unfold Engine.narrowByLinks
  split
  · rename_i s t
    refine (concurs_of_quiet (Backend.Memory.quiet_searchLinks s t link)).bind
      (yields_searchLinks s t link) fun found shortcut => ?_
    cases found with
    | some listing =>
      have traced : session.Concurs
          (session.engine.traceLinks type link (.native s) (.native t) (.native listing)) :=
        concurs_traceLinks exact (shortcut listing rfl).2
      exact traced.bind (yields_traceLinks _ _ _ _ _) fun _ _ => concurs_pure _
    | none => exact directWay
  · refine (concurs_pure none).bind (P := (· = none)) (yields_pure rfl) ?_
    rintro _ rfl
    exact directWay

/-! ### Sorting -/

section Extent

variable {extent : Effect Rows} (concurs : session.Concurs extent)
  (answered : session.Yields extent fun _ => True)

include concurs answered

theorem concurs_sort (type : String) (order : SortStep) (source : Option Rows) :
    session.Concurs (session.engine.sort extent type order source) := by
  have start : session.Concurs (source.elim extent pure) := by
    cases source with
    | none => exact concurs
    | some rows => exact concurs_pure rows
  have started : session.Yields (source.elim extent pure) fun _ => True := by
    cases source with
    | none => exact answered
    | some rows => exact yields_pure trivial
  cases order with
  | property name ascending => exact concurs_of_quiet (quiet_sortProperty type name source ascending)
  | linkedProperty targetType property link ascending =>
    exact start.bind started fun rows _ =>
      concurs_of_quiet (quiet_sortLinked targetType property type link rows ascending)
  | key number label key ascending =>
    exact start.bind started fun rows _ => concurs_of_quiet (quiet_sortKeyed rows key ascending)

theorem concurs_sortRows (type : String) (orders : List SortStep) (rows : Rows) :
    session.Concurs (session.engine.sortRows extent type orders rows) :=
  concurs_foldlM (fun rows order => concurs_sort concurs answered type order (some rows))
    (fun rows order => yields_sort answered type order (some rows)) orders rows

theorem concurs_sortExtent (type : String) (orders : List SortStep) :
    session.Concurs (session.engine.sortExtent extent type orders) := by
  cases orders with
  | nil => exact concurs
  | cons order orders =>
    exact (concurs_sort concurs answered type order none).bind (yields_sort answered type order none)
      fun rows _ => concurs_sortRows concurs answered type orders rows

end Extent

/-! ### Evaluation -/

section Nested

variable {nested : Engine.Nested} {q : Query}
  (concurs : ∀ type q, session.Concurs (nested type q)) (answered : session.Answered nested)

include concurs answered

theorem concurs_narrowByNested {type : String} {source : Rows}
    (exact : session.Exact type source) (link : String) (targets : Query) (targetType : String) :
    session.Concurs (session.engine.narrowByNested nested type source link targets targetType) := by
  unfold Engine.narrowByNested
  split
  · exact concurs_pure _
  · exact (concurs targetType targets).bind (answered targetType targets) fun rows _ =>
      concurs_narrowByLinks exact link rows

/-- A query that looks at one type at a time, or one that ranges over every type, is evaluated
for exactly one type without a report. -/
theorem concurs_evaluateType (apart : q.typeLocal = true ∨ q.spansTypes = true) (type : String) :
    session.Concurs (session.engine.evaluateType nested q type) := by
  have listed : ∀ {x : Effect Listing}, Quiet x →
      session.Concurs (do return Rows.native (← x)) := fun quiet =>
    concurs_of_quiet (quiet.bind fun listing => quiet_pure (Rows.native listing))
  have look : ∀ call keep, Quiet (Backend.Memory.lookUp call type keep) :=
    fun call keep => Backend.Memory.quiet_lookUp call type keep
  have combined : ∀ operation left right,
      session.Concurs (session.engine.combine operation left right) := fun operation left right =>
    concurs_of_quiet (quiet_combine operation left right)
  have yields : ∀ q, session.Yields (session.engine.evaluateType nested q type) fun _ => True :=
    fun q => yields_evaluateType answered q type
  have both : ∀ {l r : Query},
      (l.typeLocal && r.typeLocal) = true ∨ (l.spansTypes && r.spansTypes) = true →
        (l.typeLocal = true ∨ l.spansTypes = true) ∧ (r.typeLocal = true ∨ r.spansTypes = true) := by
    intro l r apart
    simp only [Bool.and_eq_true] at apart
    exact apart.elim (fun both => ⟨.inl both.1, .inl both.2⟩) fun both => ⟨.inr both.1, .inr both.2⟩
  induction q with
  | root c ih => exact ih apart
  | all | between | startsWith | hasLink => exact listed (look _ _)
  | linksFrom source link => exact listed (Backend.Memory.quiet_linkTargets source link)
  | equals property value =>
    cases value with
    | some value => exact listed (look _ _)
    | none =>
      exact concurs_of_quiet ((look _ _).bind fun all => (quiet_having type property).bind
        fun present => quiet_combine .diff (.native all) present)
  | hasProperty property => exact concurs_of_quiet (quiet_having type property)
  | linkedTo link target =>
    cases target with
    | some target => exact listed (look _ _)
    | none =>
      exact concurs_of_quiet ((look _ _).bind fun all => (look _ _).bind fun linked =>
        quiet_combine .diff (.native all) (.native linked))
  | linkedInto link targets targetType =>
    exact (concurs targetType targets).bind (answered targetType targets) fun rows _ =>
      concurs_of_quiet (quiet_linkedToAny type link rows)
  | inter l r ihl ihr =>
    obtain ⟨left, right⟩ := both apart
    -- an operand whose links are followed is not one that ranges over every type
    have typeLocal : l.linkedTargets?.isSome = true ∨ r.linkedTargets?.isSome = true →
        l.typeLocal = true ∧ r.typeLocal = true := by
      intro linked
      rcases apart with typeLocal | spans
      · exact (Bool.and_eq_true _ _).mp typeLocal
      · obtain ⟨spansLeft, spansRight⟩ := (Bool.and_eq_true _ _).mp spans
        rw [Query.linkedTargets?_of_spansTypes spansLeft,
          Query.linkedTargets?_of_spansTypes spansRight] at linked
        simp at linked
    unfold Engine.evaluateType
    split
    case h_1 linked =>
      exact (ihl left).bind (yields_evaluateType_exact answered
        (typeLocal (.inr (by rw [linked]; rfl))).1 type) fun _ exact =>
          concurs_narrowByNested concurs answered exact _ _ _
    case h_2 linked =>
      exact (ihr right).bind (yields_evaluateType_exact answered
        (typeLocal (.inl (by rw [linked]; rfl))).2 type) fun _ exact =>
          concurs_narrowByNested concurs answered exact _ _ _
    case h_3 =>
      exact (ihl left).bind (yields l) fun _ _ => (ihr right).bind (yields r) fun _ _ =>
        combined _ _ _
  | union l r ihl ihr | concat l r ihl ihr =>
    obtain ⟨left, right⟩ := both (apart.imp_left (by first | exact id | exact nofun))
    exact (ihl left).bind (yields l) fun _ _ => (ihr right).bind (yields r) fun _ _ =>
      combined _ _ _
  | diff l r ihl ihr =>
    obtain ⟨left, right⟩ := both apart
    refine (ihl left).bind (yields l) fun rows _ => ?_
    split
    · exact concurs_pure _
    · exact (ihr right).bind (yields r) fun _ _ => combined _ _ _
  | compl c ih =>
    exact (concurs_of_quiet (look _ _)).bind (yields_lookUp _ type _) fun all _ =>
      (ih (.inl (apart.resolve_right nofun))).bind (yields c) fun _ _ => combined _ _ _
  | sort order c ih =>
    exact (ih (.inr (apart.resolve_left nofun))).bind (yields c) fun rows _ =>
      concurs_sort (concurs type .all) (answered type .all) type order (some rows)
  | custom leaf =>
    unfold Engine.evaluateType
    split
    · exact concurs_of_quiet (Rows.quiet_ofIds _)
    · exact concurs_of_quiet ((look _ _).bind fun all => all.quiet_collect.bind fun _ =>
        Rows.quiet_ofIds _)
  | slot | converter => exact concurs_of_quiet (quiet_throw _)

theorem concurs_evaluateEach (typeLocal : q.typeLocal = true) (type : String) :
    session.Concurs (session.engine.evaluateEach nested q type) := by
  have each : ∀ part, session.Yields (session.engine.evaluateType nested q part) fun _ => True :=
    fun part => yields_evaluateType answered q part
  refine (concurs_mapM _ (fun part _ => concurs_evaluateType concurs answered (.inl typeLocal) part)
    fun part _ => each part).bind (yields_mapM (R := fun _ _ => True) _ fun part _ => each part)
      fun parts _ => concurs_of_quiet (quiet_joinParts parts)

/-- A query is evaluated over a type and its subtypes without a report. -/
theorem concurs_evaluate (q : Query) (type : String) :
    session.Concurs (session.engine.evaluate nested q type) := by
  have combined : ∀ operation left right,
      session.Concurs (session.engine.combine operation left right) := fun operation left right =>
    concurs_of_quiet (quiet_combine operation left right)
  have yields : ∀ q, session.Yields (session.engine.evaluate nested q type) fun _ => True :=
    fun q => yields_evaluate answered q type
  -- only the last way looks into the operands, so the induction is about that one
  have ways : ∀ {q : Query}, (q.typeLocal = false → q.spansTypes = false →
        session.Concurs (session.engine.evaluateApart nested q type)) →
      session.Concurs (session.engine.evaluate nested q type) := by
    intro q apart
    rw [Engine.evaluate_eq]
    split
    case isTrue spans => exact concurs_evaluateType concurs answered (.inr spans) type
    case isFalse notSpans =>
      split
      case isTrue typeLocal => exact concurs_evaluateEach concurs answered typeLocal type
      case isFalse notLocal =>
        exact apart (Bool.eq_false_iff.mpr notLocal) (Bool.eq_false_iff.mpr notSpans)
  induction q with
  | root c ih => exact ways fun _ _ => ih
  | inter l r ihl ihr | union l r ihl ihr | concat l r ihl ihr =>
    exact ways fun _ _ => ihl.bind (yields l) fun _ _ => ihr.bind (yields r) fun _ _ =>
      combined _ _ _
  | diff l r ihl ihr =>
    refine ways fun _ _ => ihl.bind (yields l) fun rows _ => ?_
    split
    · exact concurs_pure _
    · exact ihr.bind (yields r) fun _ _ => combined _ _ _
  | compl c ih =>
    exact ways fun _ _ => (concurs_evaluateEach concurs answered rfl type).bind
      (yields_evaluateEach answered .all type) fun _ _ => ih.bind (yields c) fun _ _ =>
        combined _ _ _
  | sort order c ih =>
    exact ways fun _ _ => ih.bind (yields c) fun rows _ =>
      concurs_sort (concurs type .all) (answered type .all) type order (some rows)
  | linksFrom =>
    refine ways fun _ notSpans => ?_
    cases notSpans
  | custom leaf =>
    refine ways fun notLocal notSpans => ?_
    have spans : leaf.spansTypes = true := by simpa [Query.typeLocal] using notLocal
    exact absurd (spans.symm.trans notSpans) (by decide)
  | _ =>
    refine ways fun notLocal _ => ?_
    cases notLocal

theorem concurs_answerOptimized (type : String) (optimized : Optimized) :
    session.Concurs (session.engine.answerOptimized nested type optimized) := by
  have counted : ∀ rows : Rows, session.Concurs (do
      countWork .instantiation
      return rows) := fun rows =>
    concurs_of_quiet ((quiet_countWork _).bind fun _ => quiet_pure rows)
  have all := concurs type .all
  have allAnswered := answered type .all
  unfold Engine.answerOptimized
  obtain ⟨body, orders⟩ := optimized.steps
  dsimp only
  split
  · exact (concurs_sortExtent all allAnswered type _).bind (yields_sortExtent allAnswered type _)
      fun rows _ => counted rows
  · refine (concurs_evaluate concurs answered _ type).bind (yields_evaluate answered _ type)
      fun rows _ => ?_
    exact (concurs_sortRows all allAnswered type _ rows).bind (yields_sortRows allAnswered type _ rows)
      fun rows _ => counted rows

end Nested

theorem concurs_answerWithin (levels : Nat) :
    ∀ type q, session.Concurs (session.engine.answerWithin levels type q) := by
  induction levels with
  | zero => exact fun _ _ => concurs_of_quiet (quiet_throw _)
  | succ levels ih =>
    exact fun type q => (concurs_optimize q).bind (yields_optimize q) fun optimized _ =>
      concurs_answerOptimized ih (answered_answerWithin levels) type optimized

/-- Whatever an engine is asked, it reports no disagreement of the two ways. -/
theorem concurs_answer (type : String) (q : Query) :
    session.Concurs (session.engine.answer type q) :=
  concurs_answerWithin q.levels type q

end Session

end ExtentQuery
