import ExtentQuery.Proofs.Caching.Serving
import ExtentQuery.Proofs.Rewriting.Hoisting

/-!
# Sort steps one after the other

The sort steps of a query are divided between the list of hoisted steps, which is in the
order of application, and the top of the optimized query, which is in the opposite order.
This module puts them together again.

* `Engine.sortedAnswer` — sort steps applied from the innermost one to the outermost one,
  as the query reads;
* `Engine.answerOptimized_eq_sortedAnswer` — this is what the engine does with an optimized
  query;
* `Engine.sorts_in_order` — the outcome of optimizing and answering a query below any
  number of sort steps of any kind.
-/

namespace ExtentQuery

open Effect
open Rewrite (Optimized maxHoisted)

/-- Whether nothing but one optimized query is kept for a query, be it with the stamp of a
selection or under the text of the query. -/
structure State.Keeps (s : State) (stamp : Nat) (q : Query) (u : Optimized) : Prop where
  decided : ∀ kept, s.memo.lookup stamp = some kept → kept = u
  remembered : ∀ kept, s.cache.get? q.canonical = some kept → kept = u

namespace Engine

variable (engine : Engine) (nested : Nested) (type : String)

/-- Sort steps, the outermost one first, above a query.  Each step sorts what the steps
inside it come to; the innermost one sorts what the query selects, or the whole extent if
the query selects all of it. -/
def sortedAnswer (body : Query) : List SortStep → Effect Rows
  | [] => engine.evaluate nested body type
  | order :: inner =>
    if body = .all ∧ inner = [] then engine.sort (nested type .all) type order none
    else do
      let rows ← sortedAnswer body inner
      engine.sort (nested type .all) type order (some rows)

theorem sortRows_concat (extent : Effect Rows) (orders : List SortStep) (order : SortStep)
    (rows : Rows) :
    engine.sortRows extent type (orders ++ [order]) rows
      = engine.sortRows extent type orders rows >>= fun sorted =>
          engine.sort extent type order (some sorted) := by
  simp only [sortRows, List.foldlM_append, List.foldlM_cons, List.foldlM_nil, bind_pure]

/-- Steps that are applied to the rows of a query, in the order of application. -/
theorem sortedAnswer_of_ne {body : Query} (part : body ≠ .all) (orders : List SortStep) :
    engine.sortedAnswer nested type body orders
      = engine.evaluate nested body type >>= engine.sortRows (nested type .all) type orders.reverse := by
  induction orders with
  | nil => exact (bind_pure _).symm
  | cons order inner ih =>
    rw [sortedAnswer, if_neg fun whole => part whole.1, ih, bind_assoc, List.reverse_cons]
    exact congrArg _ (funext fun rows => (engine.sortRows_concat type _ _ order rows).symm)

/-- Steps that are applied to a whole extent, in the order of application. -/
theorem sortedAnswer_all (orders : List SortStep) (some : orders ≠ []) :
    engine.sortedAnswer nested type .all orders
      = engine.sortExtent (nested type .all) type orders.reverse := by
  induction orders with
  | nil => exact absurd rfl some
  | cons order inner ih =>
    rw [sortedAnswer]
    split
    case isTrue innermost =>
      rw [innermost.2]
      exact (bind_pure _).symm
    case isFalse further =>
      have more : inner ≠ [] := fun last => further ⟨rfl, last⟩
      obtain ⟨first, rest, reversed⟩ := List.exists_cons_of_ne_nil (List.reverse_ne_nil_iff.mpr more)
      rw [ih more, List.reverse_cons, reversed]
      simp only [List.cons_append, sortExtent, sortRows_concat, bind_assoc]

/-- An optimized query is answered as its sort steps and what is below them read. -/
theorem answerOptimized_eq_sortedAnswer {u : Optimized} {body : Query}
    {orders : List SortStep} (steps : u.steps = (body, orders.reverse)) :
    engine.answerOptimized nested type u
      = engine.sortedAnswer nested type body orders >>= fun rows => do
          countWork .instantiation
          return rows := by
  rw [answerOptimized, steps]
  by_cases whole : body = .all
  · subst whole
    cases reversed : orders.reverse with
    | nil =>
      rw [List.reverse_eq_nil_iff.mp reversed]
      rfl
    | cons first rest =>
      have some : orders ≠ [] := fun none => by rw [none] at reversed; cases reversed
      rw [sortedAnswer_all engine nested type orders some, reversed]
  · rw [sortedAnswer_of_ne engine nested type whole, bind_assoc]
    cases body with
    | all => exact absurd rfl whole
    | _ => rfl

/-! ### Optimizing and answering -/

variable {engine} {type}

theorem exists_optimizeOnce {q : Query} {u : Optimized} {notices : List Notice} {stamp : Nat}
    {s : State} (made : Rewrite.optimize engine.settings.maxRewrites q [] = .ok u notices)
    (keeps : s.Keeps stamp q u) : ∃ s', engine.optimizeOnce stamp q s = .ok u s' := by
  have optimized : ∃ s', engine.optimize q s = .ok u s' := by
    cases entry : s.cache.get? q.canonical with
    | some kept =>
      obtain rfl := keeps.remembered kept entry
      exact ⟨_, optimize_of_hit entry⟩
    | none => exact ⟨_, optimize_of_miss entry made⟩
  obtain ⟨s', ran⟩ := optimized
  cases decided : s.memo.lookup stamp with
  | some kept =>
    obtain rfl := keeps.decided kept decided
    refine ⟨s, ?_⟩
    simp only [optimizeOnce, bind, EStateM.bind, get, getThe, MonadStateOf.get, EStateM.get, decided]
    rfl
  | none =>
    refine ⟨{ s' with memo := (stamp, u) :: s'.memo }, ?_⟩
    simp only [optimizeOnce, bind, EStateM.bind, get, getThe, MonadStateOf.get, EStateM.get,
      decided, ran]
    rfl

/-- **Sort steps are applied in their order.**  Optimizing a query below any number of sort
steps of any kind answers.  The outermost four steps are taken out, and the list of them is in
the order of application; the others stay above a query without sort steps.  Answering this
applies every step to the result of the one before, from the innermost to the outermost one,
beginning with the answer of the lower query, or with the whole extent if it selects all of
it; so does the evaluation of a selection that waits for the query. -/
theorem sorts_in_order (maxRewrites : Nat) (orders : List SortStep) {body : Query}
    (unsorted : body.unsorted = true) (ground : body.ground = true) :
    ∃ (u : Optimized) (rewritten : Query) (notices : List Notice),
      (∀ log, Rewrite.optimize maxRewrites (body.sortChain orders) log = .ok u (log ++ notices)) ∧
      rewritten.unsorted = true ∧
      u.hoisted.orders = (orders.take maxHoisted).reverse ∧
      u.query = rewritten.sortChain (orders.drop maxHoisted) ∧
      ∀ (engine : Engine) (type : String),
        (∀ nested, engine.answerOptimized nested type u
          = engine.sortedAnswer nested type rewritten orders >>= fun rows => do
              countWork .instantiation
              return rows) ∧
        ∀ (stamp : Nat) (s : State), engine.settings.maxRewrites = maxRewrites →
          s.Keeps stamp (body.sortChain orders) u →
          ∃ s', engine.optimizeOnce stamp (body.sortChain orders) s = .ok u s' ∧
            (Selection.deferred stamp type (body.sortChain orders)).evaluate engine s
              = engine.answerOptimized (engine.answerWithin (body.sortChain orders).levels) type
                  u s' := by
  have grounded : (body.sortChain orders).ground = true := by
    rw [Query.ground_sortChain, ground]
  obtain ⟨u, notices, made⟩ := Rewrite.optimize_total maxRewrites grounded []
  obtain ⟨rewritten, unsorted', taken, kept, steps⟩ := Rewrite.optimize_sortChain unsorted made
  refine ⟨u, rewritten, notices, ?_, unsorted', taken, kept, fun engine type => ⟨?_, ?_⟩⟩
  · exact fun log => Rewrite.optimize_of_log made log
  · exact fun nested => engine.answerOptimized_eq_sortedAnswer nested type steps
  · rintro stamp s rfl keeps
    obtain ⟨s', ran⟩ := exists_optimizeOnce made keeps
    refine ⟨s', ran, ?_⟩
    simp only [Selection.evaluate, bind, EStateM.bind, ran]

/-- Five sort steps, of every kind, above a condition. -/
def fiveSteps : List SortStep :=
  [.property "age" true, .key 7 "shade" .localId false,
    .linkedProperty "person" "name" "owner" true, .property "weight" false, .property "name" true]

set_option maxRecDepth 10000 in
/-- Of five steps, the innermost one stays in the query, and it is applied first. -/
theorem sorts_in_order_fiveSteps :
    (Query.hasProperty "age").unsorted = true ∧ (Query.hasProperty "age").ground = true ∧
    ∃ (u : Optimized) (notices : List Notice),
      Rewrite.optimize 100 ((Query.hasProperty "age").sortChain fiveSteps) [] = .ok u notices ∧
      u.hoisted.orders = [.property "weight" false,
        .linkedProperty "person" "name" "owner" true, .key 7 "shade" .localId false,
        .property "age" true] ∧
      u.query = .sort (.property "name" true) (.hasProperty "age") ∧
      ∀ (engine : Engine) (nested : Nested) (type : String),
        engine.answerOptimized nested type u = do
          let selected ← engine.evaluate nested (.hasProperty "age") type
          let byName ← engine.sort (nested type .all) type (.property "name" true) selected
          let byWeight ← engine.sort (nested type .all) type (.property "weight" false) byName
          let byOwner ← engine.sort (nested type .all) type
            (.linkedProperty "person" "name" "owner" true) byWeight
          let byShade ← engine.sort (nested type .all) type (.key 7 "shade" .localId false) byOwner
          let byAge ← engine.sort (nested type .all) type (.property "age" true) byShade
          countWork .instantiation
          return byAge := by
  have unsorted : (Query.hasProperty "age").unsorted = true := rfl
  obtain ⟨u, rewritten, notices, made, -, taken, kept, answered⟩ :=
    sorts_in_order 100 fiveSteps unsorted rfl
  have computed : (Rewrite.optimize 100 ((Query.hasProperty "age").sortChain fiveSteps)).run' []
      = some ⟨.sort (.property "name" true) (.hasProperty "age"),
          ⟨[.property "weight" false, .linkedProperty "person" "name" "owner" true,
            .key 7 "shade" .localId false, .property "age" true], by decide⟩⟩ := by
    decide +kernel
  have here := made []
  rw [EStateM.run', EStateM.run, here] at computed
  obtain rfl := Option.some.inj computed
  obtain ⟨-, rfl⟩ := Query.sort.inj kept
  refine ⟨rfl, rfl, _, _, here, rfl, rfl, fun engine nested type => ?_⟩
  have part : Query.hasProperty "age" ≠ .all := by rintro ⟨⟩
  rw [(answered engine type).1, engine.sortedAnswer_of_ne nested type part]
  simp only [sortRows, fiveSteps, List.reverse_cons, List.reverse_nil, List.nil_append,
    List.cons_append, List.foldlM_cons, List.foldlM_nil, bind_assoc, pure_bind]

end Engine

end ExtentQuery
