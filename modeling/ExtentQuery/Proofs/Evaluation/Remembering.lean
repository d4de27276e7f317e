import ExtentQuery.Proofs.Evaluation.Agreement
import ExtentQuery.Proofs.Evaluation.Traces

/-!
# What evaluation leaves as it is

Evaluating a query without queries inside it reads the store, counts calls and hands out
stamps (`Session.quiet_evaluate`).  It does not touch the cache, and it decides nothing about
selections that wait for their evaluation.  Only optimization does (`Engine.optimizeOnce`).

* `State.SameMemory`, `Effect.RemembersNothing` — states that remember and have decided
  the same, and computations that only lead to such states;
* `Session.remembersNothing_evaluate` — evaluation is such a computation;
* `Session.Sound` — a state that remembers nothing wrong about any legible query, an
  invariant of all of this.
-/

namespace ExtentQuery

open Effect
open Rewrite (Optimized)

/-! ### Computations that remember nothing -/

/-- Whether a later state remembers and has decided the same. -/
structure State.SameMemory (s s' : State) : Prop where
  cache : s'.cache = s.cache
  memo : s'.memo = s.memo
  nextStamp_le : s.nextStamp ≤ s'.nextStamp

theorem State.SameMemory.refl (s : State) : s.SameMemory s :=
  ⟨rfl, rfl, Nat.le_refl _⟩

theorem State.SameMemory.trans {s s₁ s₂ : State} (first : s.SameMemory s₁)
    (second : s₁.SameMemory s₂) : s.SameMemory s₂ :=
  ⟨second.cache.trans first.cache, second.memo.trans first.memo,
    Nat.le_trans first.nextStamp_le second.nextStamp_le⟩

/-- Whether a computation that answers leaves alone what is remembered and what is
decided. -/
def Effect.RemembersNothing {α : Type} (x : Effect α) : Prop :=
  ∀ ⦃s : State⦄ ⦃a : α⦄ ⦃s' : State⦄, x s = .ok a s' → s.SameMemory s'

namespace Effect

variable {α β : Type}

theorem remembersNothing_pure (a : α) : RemembersNothing (pure a) := by
  rintro s _ _ ⟨⟩
  exact .refl s

theorem RemembersNothing.bind {x : Effect α} {f : α → Effect β} (first : RemembersNothing x)
    (rest : ∀ a, RemembersNothing (f a)) : RemembersNothing (x >>= f) := by
  intro s b s' ran
  obtain ⟨a, s₁, start, ran⟩ := exists_of_bind ran
  exact (first start).trans (rest a ran)

/-- What only counts and hands out stamps remembers nothing. -/
theorem Quiet.remembersNothing {x : Effect α} (quiet : Quiet x) : RemembersNothing x := by
  intro s a s' ran
  have counted := quiet s
  rw [final_of_ok ran] at counted
  exact ⟨counted.cache, counted.memo, counted.nextStamp_le⟩

theorem remembersNothing_countWork (work : Work) : RemembersNothing (countWork work) :=
  (quiet_countWork work).remembersNothing

theorem remembersNothing_report (notice : Notice) : RemembersNothing (report notice) := by
  rintro s _ _ ⟨⟩
  exact ⟨rfl, rfl, Nat.le_refl _⟩

theorem remembersNothing_foldlM {f : β → α → Effect β} (each : ∀ b a, RemembersNothing (f b a))
    (l : List α) (b : β) : RemembersNothing (l.foldlM f b) := by
  induction l generalizing b with
  | nil => exact remembersNothing_pure b
  | cons a l ih =>
    rw [List.foldlM_cons]
    exact (each b a).bind ih

theorem remembersNothing_forM {f : α → Effect Unit} (each : ∀ a, RemembersNothing (f a))
    (l : List α) : RemembersNothing (l.forM f) := by
  induction l with
  | nil => exact remembersNothing_pure ()
  | cons a l ih =>
    rw [List.forM_eq_forM, List.forM_cons]
    exact (each a).bind fun _ => ih

end Effect

/-! ### Evaluation -/

namespace Session

variable {session : Session} {nested : Engine.Nested} {q : Query}

theorem remembersNothing_combine (operation : SetOperation) (left right : Rows) :
    RemembersNothing (session.engine.combine operation left right) :=
  (quiet_combine operation left right).remembersNothing

theorem quiet_evaluateType (unranged : q.unranged = true) (type : String) :
    Quiet (session.engine.evaluateType nested q type) := by
  have listed : ∀ {x : Effect Listing}, Quiet x →
      Quiet (do return Rows.native (← x)) := fun look =>
    look.bind fun listing => quiet_pure (Rows.native listing)
  have look : ∀ call keep,
      Quiet (Backend.Memory.lookUp call type keep) := fun call keep =>
    Backend.Memory.quiet_lookUp call type keep
  induction q with
  | root c ih => exact ih unranged
  | all => exact listed (look _ _)
  | linksFrom source link => exact listed (Backend.Memory.quiet_linkTargets source link)
  | equals property value =>
    cases value with
    | some value => exact listed (look _ _)
    | none =>
      exact (look _ _).bind fun all =>
        (quiet_having type property).bind fun present =>
          quiet_combine .diff (.native all) present
  | startsWith property start => exact listed (look _ _)
  | hasProperty property => exact quiet_having type property
  | linkedTo link target =>
    cases target with
    | some target => exact listed (look _ _)
    | none =>
      exact (look _ _).bind fun all => (look _ _).bind fun linked =>
        quiet_combine .diff (.native all) (.native linked)
  | hasLink link => exact listed (look _ _)
  | inter l r ihl ihr =>
    obtain ⟨left, right⟩ := (Bool.and_eq_true _ _).mp unranged
    simp only [Engine.evaluateType, Query.linkedTargets?_of_unranged left,
      Query.linkedTargets?_of_unranged right]
    exact (ihl left).bind fun l => (ihr right).bind fun r => quiet_combine .inter l r
  | union l r ihl ihr =>
    obtain ⟨left, right⟩ := (Bool.and_eq_true _ _).mp unranged
    exact (ihl left).bind fun l => (ihr right).bind fun r => quiet_combine .union l r
  | diff l r ihl ihr =>
    obtain ⟨left, right⟩ := (Bool.and_eq_true _ _).mp unranged
    refine (ihl left).bind fun l => ?_
    split
    · exact quiet_pure _
    · exact (ihr right).bind fun r => quiet_combine .diff l r
  | concat l r ihl ihr =>
    obtain ⟨left, right⟩ := (Bool.and_eq_true _ _).mp unranged
    exact (ihl left).bind fun l => (ihr right).bind fun r => quiet_combine .concat l r
  | compl c ih =>
    exact (look _ _).bind fun all => (ih unranged).bind fun excluded =>
      quiet_combine .diff (.native all) excluded
  | between | linkedInto | sort | custom | slot | converter => cases unranged

theorem quiet_evaluateEach (unranged : q.unranged = true) (type : String) :
    Quiet (session.engine.evaluateEach nested q type) :=
  (quiet_mapM (quiet_evaluateType unranged) _).bind fun parts => quiet_joinParts parts

/-- A query without queries inside it is evaluated without a trace but in counts. -/
theorem quiet_evaluate (unranged : q.unranged = true) (type : String) :
    Quiet (session.engine.evaluate nested q type) := by
  have ways : ∀ {q : Query}, q.unranged = true →
      Quiet (session.engine.evaluateApart nested q type) →
      Quiet (session.engine.evaluate nested q type) := by
    intro q unranged apart
    rw [Engine.evaluate_eq]
    split
    · exact quiet_evaluateType unranged type
    split
    · exact quiet_evaluateEach unranged type
    · exact apart
  induction q with
  | root c ih => exact ways unranged (ih unranged)
  | inter l r ihl ihr | union l r ihl ihr | concat l r ihl ihr =>
    obtain ⟨left, right⟩ := (Bool.and_eq_true _ _).mp unranged
    exact ways unranged ((ihl left).bind fun l => (ihr right).bind fun r =>
      quiet_combine _ l r)
  | diff l r ihl ihr =>
    obtain ⟨left, right⟩ := (Bool.and_eq_true _ _).mp unranged
    refine ways unranged ((ihl left).bind fun l => ?_)
    split
    · exact quiet_pure _
    · exact (ihr right).bind fun r => quiet_combine .diff l r
  | compl c ih =>
    exact ways unranged ((quiet_evaluateEach rfl type).bind fun all =>
      (ih unranged).bind fun excluded => quiet_combine .diff all excluded)
  | between | linkedInto | sort | custom | slot | converter => cases unranged
  | _ => exact ways unranged (quiet_evaluateEach unranged type)

theorem remembersNothing_evaluate (unranged : q.unranged = true) (type : String) :
    RemembersNothing (session.engine.evaluate nested q type) :=
  (quiet_evaluate unranged type).remembersNothing

/-- Without sort steps, answering leaves no trace but the evaluation's. -/
theorem remembersNothing_answerOptimized (unranged : q.unranged = true) (type : String) :
    RemembersNothing (session.engine.answerOptimized nested type ⟨q, .empty⟩) := by
  have noSteps : (⟨q, .empty⟩ : Optimized).steps = (q, []) := by
    simp only [Optimized.steps, Query.splitSorts_of_unranged unranged]
    rfl
  unfold Engine.answerOptimized
  simp only [noSteps]
  refine (remembersNothing_evaluate unranged type).bind fun rows => ?_
  exact (remembersNothing_pure rows).bind fun rows =>
    (remembersNothing_countWork _).bind fun _ => remembersNothing_pure rows

/-- Sorting by a property leaves no trace in what is remembered. -/
theorem remembersNothing_sortProperty (type property : String) (source : Option Rows)
    (ascending : Bool) :
    RemembersNothing (session.engine.sortProperty type property source ascending) :=
  (quiet_sortProperty type property source ascending).remembersNothing

/-! ### States that remember nothing wrong -/

/-- A state of a session that remembers only what it has made of legible queries, and that
has decided only about selections that exist. -/
structure Sound (session : Session) (s : State) : Prop where
  reached : session.Reaches s
  remembers : s.cache.Remembers fun q optimized => q.legible = true ∧
    ∃ notices, Rewrite.optimize session.settings.maxRewrites q [] = .ok optimized notices
  handedOut : ∀ entry ∈ s.memo, entry.1 < s.nextStamp

theorem sound_of_reachesBy (fresh : session.Fresh) {s : State}
    (history : session.ReachesBy (·.legible = true) s) : session.Sound s where
  reached := history.reaches
  remembers := remembers_of_reachesBy fresh history
  handedOut := lt_nextStamp_of_reaches fresh history.reaches

/-- What is remembered under the text of a legible query was made of it, up to the order of
commuting operands. -/
theorem Sound.optimizes {s : State} (sound : session.Sound s) (legible : q.legible = true)
    {optimized : Optimized} (found : s.cache.get? q.canonical = some optimized) :
    session.Optimizes q optimized := by
  obtain ⟨q', text, legible', notices, made⟩ := sound.remembers _ optimized found
  exact ⟨q', notices, Query.commuted_of_canonical legible' legible text, made⟩

theorem Sound.of_sameMemory {s s' : State} (sound : session.Sound s) (same : s.SameMemory s')
    (reached : session.Reaches s') : session.Sound s' where
  reached := reached
  remembers := same.cache ▸ sound.remembers
  handedOut entry mem :=
    Nat.lt_of_lt_of_le (sound.handedOut entry (same.memo ▸ mem)) same.nextStamp_le

/-- Optimizing a query and remembering the result. -/
theorem Sound.optimizeNow {s s' : State} {optimized : Optimized} (sound : session.Sound s)
    (legible : q.legible = true) (ran : session.engine.optimizeNow q s = .ok optimized s') :
    session.Sound s' ∧ s'.memo = s.memo ∧ s.nextStamp ≤ s'.nextStamp := by
  have reached := (yields_optimizeNow q sound.reached ran).1
  have reports : ∀ notices : List Notice, RemembersNothing (notices.forM report) := fun notices =>
    remembersNothing_forM remembersNothing_report notices
  unfold Engine.optimizeNow at ran
  cases found : (Rewrite.optimize session.engine.settings.maxRewrites q).run [] with
  | error fault notices =>
    simp only [found] at ran
    obtain ⟨_, _, _, throwing⟩ := Effect.exists_of_bind ran
    cases throwing
  | ok made notices =>
    simp only [found] at ran
    obtain ⟨_, s₁, reporting, ran⟩ := Effect.exists_of_bind ran
    have same := reports notices reporting
    cases ran
    refine ⟨⟨reached, ?_, ?_⟩, same.memo, same.nextStamp_le⟩
    · show (s₁.cache.store q optimized).Remembers _
      rw [same.cache]
      exact sound.remembers.store ⟨legible, notices, found⟩
    · exact fun entry mem =>
        Nat.lt_of_lt_of_le (sound.handedOut entry (same.memo ▸ mem)) same.nextStamp_le

/-- The optimized form of a legible query, from the cache or not. -/
theorem Sound.optimize {s s' : State} {optimized : Optimized} (sound : session.Sound s)
    (legible : q.legible = true) (ran : session.engine.optimize q s = .ok optimized s') :
    session.Sound s' ∧ session.Optimizes q optimized ∧ s'.memo = s.memo ∧
      s.nextStamp ≤ s'.nextStamp := by
  have optimizes := optimizes_of_optimize sound.reached
    (fun _ found => sound.optimizes legible found) ran
  have reached := (yields_optimize q sound.reached ran).1
  suffices kept : session.Sound s' ∧ s'.memo = s.memo ∧ s.nextStamp ≤ s'.nextStamp from
    ⟨kept.1, optimizes, kept.2⟩
  obtain ⟨found, s₁, lookUp, ran⟩ := Effect.exists_of_bind ran
  have counted : session.Sound s₁ ∧ s₁.memo = s.memo ∧ s₁.nextStamp = s.nextStamp := by
    cases lookUp
    exact ⟨⟨sound.reached.step (.lookedUp s q.canonical), sound.remembers.count,
      sound.handedOut⟩, rfl, rfl⟩
  obtain ⟨sound₁, memo, stamp⟩ := counted
  cases found with
  | some here =>
    obtain ⟨_, _, making, ran⟩ := Effect.exists_of_bind ran
    obtain ⟨_, _, counting, ran⟩ := Effect.exists_of_bind ran
    cases making
    cases counting
    cases ran
    exact ⟨⟨reached, sound₁.remembers, sound₁.handedOut⟩, memo, stamp.ge⟩
  | none =>
    obtain ⟨_, _, making, ran⟩ := Effect.exists_of_bind ran
    obtain ⟨_, _, counting, ran⟩ := Effect.exists_of_bind ran
    obtain ⟨sound₂, memo₂, stamp₂⟩ := sound₁.optimizeNow legible making
    cases counting
    cases ran
    exact ⟨⟨reached, sound₂.remembers, sound₂.handedOut⟩, memo₂.trans memo, stamp ▸ stamp₂⟩

/-- Whether a stamp was handed out, and what is decided for it, if anything, was made of a
query. -/
structure Fits (session : Session) (s : State) (stamp : Nat) (q : Query) : Prop where
  handedOut : stamp < s.nextStamp
  decided : ∀ optimized, s.memo.lookup stamp = some optimized → session.Optimizes q optimized

theorem Fits.of_sameMemory {s s' : State} {stamp : Nat} (fits : session.Fits s stamp q)
    (same : s.SameMemory s') : session.Fits s' stamp q where
  handedOut := Nat.lt_of_lt_of_le fits.handedOut same.nextStamp_le
  decided := same.memo ▸ fits.decided

/-- The optimized query of a selection, decided now or before.  Other selections may go on
waiting, as long as the same stamp stands for the same query. -/
theorem Sound.optimizeOnce {s s' : State} {stamp : Nat} {optimized : Optimized}
    (sound : session.Sound s) (legible : q.legible = true) (fits : session.Fits s stamp q)
    (ran : session.engine.optimizeOnce stamp q s = .ok optimized s') :
    session.Sound s' ∧ session.Optimizes q optimized ∧
      ∀ stamp' q', session.Fits s stamp' q' → (stamp' = stamp → q' = q) →
        session.Fits s' stamp' q' := by
  obtain ⟨_, _, read, ran⟩ := Effect.exists_of_bind ran
  cases read
  cases found : s.memo.lookup stamp with
  | some before =>
    simp only [found] at ran
    cases ran
    exact ⟨sound, fits.decided _ found, fun _ _ other _ => other⟩
  | none =>
    simp only [found] at ran
    obtain ⟨_, s₁, optimizing, ran⟩ := Effect.exists_of_bind ran
    obtain ⟨_, _, deciding, ran⟩ := Effect.exists_of_bind ran
    cases deciding
    cases ran
    obtain ⟨sound₁, optimizes, memo, grows⟩ := sound.optimize legible optimizing
    have handedOut : stamp < s₁.nextStamp := Nat.lt_of_lt_of_le fits.handedOut grows
    refine ⟨⟨sound₁.reached.step (.decided s₁ optimized handedOut), sound₁.remembers, ?_⟩,
      optimizes, fun stamp' q' other same => ⟨?_, ?_⟩⟩
    · intro entry mem
      rcases List.mem_cons.mp mem with rfl | mem
      · exact handedOut
      · exact sound₁.handedOut entry mem
    · exact Nat.lt_of_lt_of_le other.handedOut grows
    · intro optimized' decided
      by_cases here : stamp' = stamp
      · subst here
        rw [List.lookup_cons_self] at decided
        rw [same rfl, ← Option.some.inj decided]
        exact optimizes
      · rw [List.lookup_cons, beq_false_of_ne here, memo] at decided
        exact other.decided optimized' decided

end Session

end ExtentQuery
