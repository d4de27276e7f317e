import ExtentQuery.Proofs.Rewriting.Interpretation

/-!
# Rules under an interpretation

What a rule does to the value of a query is decided by its two sides, and what a pass
does is decided by its rules.

* `Rule.Related` — the destination of a rule is related to its source, whatever the
  slots stand for; `Rule.Related.orientation` carries this over to all orientations;
* `Pass.Rewrites.related` — the end of a rewriting is related to its beginning, if each
  application of a rule is;
* `Rule.Closed`, `Rule.rewrite?_total` — a rule that uses only placeholders of its source
  applies without a fault to every query without placeholders, and
  `Pass.run_total` — so a pass of such rules runs without a fault.
-/

namespace ExtentQuery

open Interpretation

/-! ### Orientations -/

/-- Exchanging commuting operands does not change the value. -/
theorem Interpretation.Commutes.of_flip {α : Type} {m : Interpretation α}
    (commutes : m.Commutes) (choice : Nat) (q : Query) :
    ∀ next, m.of (q.flip choice next).1 = m.of q := by
  induction q with
  | inter l r ihl ihr =>
    intro next
    unfold Query.flip
    split
    · simp only [of, ihl, ihr, commutes.inter_comm]
    · simp only [of, ihl, ihr]
  | union l r ihl ihr =>
    intro next
    unfold Query.flip
    split
    · simp only [of, ihl, ihr, commutes.union_comm]
    · simp only [of, ihl, ihr]
  | diff l r ihl ihr | concat l r ihl ihr =>
    intro next
    simp only [Query.flip, of, ihl, ihr]
  | root c ih | compl c ih | sort order c ih =>
    intro next
    simp only [Query.flip, of, ih]
  | _ => exact fun _ => rfl

theorem Interpretation.Commutes.assign {α : Type} {m : Interpretation α}
    (commutes : m.Commutes) (values : Nat → α) : (m.assign values).Commutes :=
  ⟨commutes.inter_comm, commutes.union_comm⟩

theorem Interpretation.commutes_allNodes (property : Query → Bool) (sorts concats : Bool) :
    (allNodes property sorts concats).Commutes :=
  ⟨Bool.and_comm, Bool.and_comm⟩

theorem Interpretation.commutes_allLeaves (property : Query → Bool) (sorts : Bool) :
    (allLeaves property sorts).Commutes :=
  commutes_allNodes property sorts true

theorem Query.converterFree_flip (choice : Nat) (q : Query) (next : Nat) :
    (q.flip choice next).1.converterFree = q.converterFree :=
  (commutes_allLeaves _ _).of_flip choice q next

theorem Query.mentions_flip (choice : Nat) (q : Query) (next number : Nat) :
    (q.flip choice next).1.mentions number = q.mentions number :=
  Commutes.of_flip ⟨Bool.or_comm, Bool.or_comm⟩ choice q next

namespace Rewrite

/-! ### One rule -/

namespace Rule

theorem mem_orientations {rule oriented : Rule} (mem : oriented ∈ rule.orientations) :
    ∃ choice, oriented.source = (rule.source.flip choice 0).1
      ∧ oriented.destination = rule.destination := by
  obtain ⟨choice, -, rfl⟩ := List.mem_map.mp mem
  exact ⟨choice, rfl, rfl⟩

/-- What a rule that applies has done. -/
theorem rewrite?_eq_some {rule : Rule} {q q' : Query}
    (rewritten : rule.rewrite? q = .ok (some q')) :
    ∃ bindings, rule.source.matchAgainst q [] = .ok (some bindings)
      ∧ rule.destination.fill bindings = .ok q' := by
  unfold rewrite? at rewritten
  split at rewritten
  case h_1 => cases rewritten
  case h_2 => cases rewritten
  case h_3 bindings matched =>
    split at rewritten
    case h_1 => cases rewritten
    case h_2 replacement filled =>
      cases rewritten
      exact ⟨bindings, matched, filled⟩

/-- A rule that does not apply does not match. -/
theorem matchAgainst_eq_none {rule : Rule} {q : Query} (unchanged : rule.rewrite? q = .ok none) :
    rule.source.matchAgainst q [] = .ok none := by
  unfold rewrite? at unchanged
  split at unchanged
  case h_1 => cases unchanged
  case h_2 noMatch => exact noMatch
  case h_3 => split at unchanged <;> cases unchanged

variable {α : Type} {m : Interpretation α} {R : α → α → Prop}

/-- The destination of a rule is related to its source, whatever the slots stand for. -/
structure Related (m : Interpretation α) (R : α → α → Prop) (rule : Rule) : Prop where
  source_plain : rule.source.converterFree = true
  destination_plain : rule.destination.converterFree = true
  related : ∀ values : Nat → α,
    R ((m.assign values).of rule.destination) ((m.assign values).of rule.source)

/-- All orientations of a rule relate the same values. -/
theorem Related.orientation {rule oriented : Rule} (related : rule.Related m R)
    (commutes : m.Commutes) (mem : oriented ∈ rule.orientations) :
    oriented.Related m R := by
  obtain ⟨choice, source, destination⟩ := mem_orientations mem
  constructor
  · rw [source, Query.converterFree_flip]
    exact related.source_plain
  · rw [destination]
    exact related.destination_plain
  · intro values
    rw [source, destination, (commutes.assign values).of_flip]
    exact related.related values

/-- A rule that applies relates the value of the replacement to that of the query. -/
theorem Related.of_rewrite? {rule : Rule} (related : rule.Related m R) (fair : m.Fair)
    {q q' : Query} (rewritten : rule.rewrite? q = .ok (some q')) :
    R (m.of q') (m.of q) := by
  obtain ⟨bindings, matched, filled⟩ := rewrite?_eq_some rewritten
  have source := fair.of_matchAgainst related.source_plain matched
    (m.valuesOf bindings) (m.agrees_valuesOf bindings)
  rw [m.of_fill related.destination_plain filled, ← source]
  exact related.related (m.valuesOf bindings)

end Rule

theorem exists_of_firstRewrite? {rules : List Rule} {q q' : Query}
    (rewritten : firstRewrite? rules q = .ok (some q')) :
    ∃ rule ∈ rules, rule.rewrite? q = .ok (some q') := by
  induction rules with
  | nil => cases rewritten
  | cons rule rules ih =>
    unfold firstRewrite? at rewritten
    split at rewritten
    case h_1 => cases rewritten
    case h_2 replacement applied =>
      cases rewritten
      exact ⟨rule, List.mem_cons_self, applied⟩
    case h_3 =>
      obtain ⟨later, mem, applied⟩ := ih rewritten
      exact ⟨later, List.mem_cons_of_mem _ mem, applied⟩

theorem rewrite?_eq_none_of_firstRewrite? {rules : List Rule} {q : Query}
    (unchanged : firstRewrite? rules q = .ok none) :
    ∀ rule ∈ rules, rule.rewrite? q = .ok none := by
  induction rules with
  | nil => intro rule mem; cases mem
  | cons first rules ih =>
    unfold firstRewrite? at unchanged
    split at unchanged
    case h_1 => cases unchanged
    case h_2 => cases unchanged
    case h_3 applied =>
      intro rule mem
      rcases List.mem_cons.mp mem with rfl | later
      · exact applied
      · exact ih unchanged rule later

/-! ### Rewriting -/

variable {α : Type} {m : Interpretation α} {R : α → α → Prop}

/-- Replacing an operand relates the values, if the values of the operands are related. -/
theorem related_setChild (keeps : m.Keeps R) {q c c' : Query} {i : Nat}
    (at_i : q.child? i = some c) (related : R (m.of c') (m.of c)) :
    R (m.of (q.setChild i c')) (m.of q) := by
  unfold Query.child? at at_i
  split at at_i <;> cases at_i
  · exact keeps.inter_left _ related
  · exact keeps.inter_right _ related
  · exact keeps.union_left _ related
  · exact keeps.union_right _ related
  · exact keeps.diff_left _ related
  · exact keeps.diff_right _ related
  · exact keeps.concat_left _ related
  · exact keeps.concat_right _ related
  · exact keeps.root related
  · exact keeps.compl related
  · exact keeps.sort related

/-- The end of a rewriting is related to its beginning, if each application of a rule is,
and if taking out a sort step is. -/
theorem Pass.Rewrites.related {pass : Pass} (respects : m.Respects R)
    (applied : ∀ q q', firstRewrite? pass.rules q = .ok (some q') →
      (pass.onEntry = false → pass.Stuck q) → R (m.of q') (m.of q))
    (taken : pass.hoists = true → ∀ x, R x (m.sort x))
    {q q' : Query} (rewriting : pass.Rewrites q q') : R (m.of q') (m.of q) := by
  induction rewriting with
  | refl q => exact respects.refl _
  | trans _ _ first second => exact respects.trans second first
  | rule rewritten stuck => exact applied _ _ rewritten stuck
  | hoist hoists => exact taken hoists _
  | inside at_i _ ih => exact related_setChild respects.toKeeps at_i ih

/-! ### No faults -/

/-- A rule whose destination uses only placeholders of its source. -/
def Rule.Closed (rule : Rule) : Prop :=
  ∀ number, rule.destination.mentions number = true → rule.source.mentions number = true

theorem Rule.Closed.orientation {rule oriented : Rule} (closed : rule.Closed)
    (mem : oriented ∈ rule.orientations) : oriented.Closed := by
  obtain ⟨choice, source, destination⟩ := Rule.mem_orientations mem
  intro number mentioned
  rw [source, Query.mentions_flip]
  exact closed number (destination ▸ mentioned)

end Rewrite

namespace Query

/-- An operand of a query without placeholders has none either. -/
theorem ground_child? {q c : Query} {i : Nat} (ground : q.ground = true)
    (at_i : q.child? i = some c) : c.ground = true :=
  allLeaves_child? ground at_i

theorem ground_below {q d : Query} (below : d.Below q) (ground : q.ground = true) :
    d.ground = true := by
  induction below with
  | operand at_i => exact ground_child? ground at_i
  | deeper at_i _ ih => exact ih (ground_child? ground at_i)

/-- A node with two operands is what its kind says, unless it is a placeholder. -/
theorem exists_child?_of_kind {q : Query} (ground : q.ground = true)
    (kind : q.kind = .inter ∨ q.kind = .union ∨ q.kind = .diff ∨ q.kind = .concat) :
    ∃ x y, q.child? 0 = some x ∧ q.child? 1 = some y := by
  cases q <;> simp_all [Query.kind, child?]
  cases ground

theorem exists_child?_zero_of_kind {q : Query} (ground : q.ground = true)
    (kind : q.kind = .root ∨ q.kind = .compl) : ∃ x, q.child? 0 = some x := by
  cases q <;> simp_all [Query.kind, child?]
  cases ground

/-- Matching a query without placeholders does not fault. -/
theorem matchAgainst_total : ∀ (pattern q : Query) (bindings : Bindings), q.ground = true →
    ∃ found, pattern.matchAgainst q bindings = .ok found := by
  intro pattern
  induction pattern with
  | inter l r ihl ihr | union l r ihl ihr | diff l r ihl ihr | concat l r ihl ihr =>
    intro q bindings ground
    unfold matchAgainst Matcher.ofKind
    split
    case isTrue kind =>
      obtain ⟨x, y, at_0, at_1⟩ := exists_child?_of_kind ground (by simp [kind])
      obtain ⟨first, left⟩ := ihl x bindings (ground_child? ground at_0)
      simp only [Matcher.both, Matcher.only, childOrFault, at_0, at_1, left]
      cases first with
      | none => exact ⟨none, rfl⟩
      | some between => exact ihr y between (ground_child? ground at_1)
    case isFalse => exact ⟨none, rfl⟩
  | root c ih | compl c ih =>
    intro q bindings ground
    unfold matchAgainst Matcher.ofKind
    split
    case isTrue kind =>
      obtain ⟨x, at_0⟩ := exists_child?_zero_of_kind ground (by simp [kind])
      simp only [Matcher.only, childOrFault, at_0]
      exact ih x bindings (ground_child? ground at_0)
    case isFalse => exact ⟨none, rfl⟩
  | sort order c ih =>
    intro q bindings ground
    unfold matchAgainst
    split
    case h_1 =>
      split
      case isTrue => exact ih _ _ ground
      case isFalse => exact ⟨none, rfl⟩
    case h_2 => exact ⟨none, rfl⟩
  | _ => exact fun _ _ _ => ⟨_, rfl⟩

/-- Filling a pattern whose placeholders are bound does not fault. -/
theorem fill_total : ∀ (pattern : Query) (bindings : Bindings),
    (∀ number, pattern.mentions number = true → ∃ x, bindings.find? number = some x) →
      ∃ filled, pattern.fill bindings = .ok filled := by
  intro pattern
  induction pattern with
  | slot number =>
    intro bindings bound
    obtain ⟨x, found⟩ := bound number (beq_self_eq_true number)
    exact ⟨x, by simp only [fill, boundOrFault, found]⟩
  | converter number conversion =>
    intro bindings bound
    obtain ⟨x, found⟩ := bound number (beq_self_eq_true number)
    exact ⟨conversion.convert x, by simp only [fill, boundOrFault, found]; rfl⟩
  | inter l r ihl ihr | union l r ihl ihr | diff l r ihl ihr | concat l r ihl ihr =>
    intro bindings bound
    obtain ⟨x, left⟩ := ihl bindings fun number mentioned =>
      bound number ((Bool.or_eq_true _ _).mpr (.inl mentioned))
    obtain ⟨y, right⟩ := ihr bindings fun number mentioned =>
      bound number ((Bool.or_eq_true _ _).mpr (.inr mentioned))
    exact ⟨_, by simp only [fill, left, right]; rfl⟩
  | root c ih | compl c ih | sort _ c ih =>
    intro bindings bound
    obtain ⟨x, operand⟩ := ih bindings bound
    exact ⟨_, by simp only [fill, operand]; rfl⟩
  | _ => exact fun _ _ => ⟨_, rfl⟩

/-- What a conversion makes of a query without placeholders has none either. -/
theorem ground_convert (conversion : Transformation) {q : Query} (ground : q.ground = true) :
    (conversion.convert q).ground = true := by
  unfold Transformation.convert
  split
  · split
    · rfl
    · exact ground
  · rfl
  · rfl
  · exact ground

/-- A filled pattern has no placeholders, if what fills it has none. -/
theorem ground_fill : ∀ {pattern filled : Query} {bindings : Bindings},
    pattern.fill bindings = .ok filled →
      (∀ number x, bindings.find? number = some x → x.ground = true) → filled.ground = true := by
  intro pattern
  induction pattern with
  | slot number =>
    intro filled bindings found ground
    unfold fill boundOrFault at found
    split at found
    case h_1 q eq => exact ground _ _ (Except.ok.inj found ▸ eq)
    case h_2 => cases found
  | converter number conversion =>
    intro filled bindings found ground
    obtain ⟨x, bound, found⟩ := exists_of_bind_eq_ok found
    cases found
    unfold boundOrFault at bound
    split at bound
    case h_1 q eq => exact ground_convert conversion (ground _ _ (Except.ok.inj bound ▸ eq))
    case h_2 => cases bound
  | inter l r ihl ihr | union l r ihl ihr | diff l r ihl ihr | concat l r ihl ihr =>
    intro filled bindings found ground
    obtain ⟨x, left, found⟩ := exists_of_bind_eq_ok found
    obtain ⟨y, right, found⟩ := exists_of_bind_eq_ok found
    cases found
    exact (Bool.and_eq_true _ _).mpr ⟨ihl left ground, ihr right ground⟩
  | root c ih | compl c ih | sort _ c ih =>
    intro filled bindings found ground
    obtain ⟨x, operand, found⟩ := exists_of_bind_eq_ok found
    cases found
    have grounded : x.ground = true := ih operand ground
    exact grounded
  | _ =>
    intro filled bindings found _
    cases found
    rfl

end Query

namespace Rewrite

/-- A closed rule is tried without a fault on a query without placeholders, and its
replacement has none either. -/
theorem Rule.Closed.rewrite?_total {rule : Rule} (closed : rule.Closed) {q : Query}
    (ground : q.ground = true) :
    ∃ answer, rule.rewrite? q = .ok answer ∧ ∀ q', answer = some q' → q'.ground = true := by
  obtain ⟨found, matched⟩ := rule.source.matchAgainst_total q [] ground
  cases found with
  | none => exact ⟨none, by simp only [rewrite?, matched], fun _ none => by cases none⟩
  | some bindings =>
    have binding := Query.binding_of_matchAgainst matched
    obtain ⟨filled, filling⟩ := rule.destination.fill_total bindings fun number mentioned =>
      binding.binds number (closed number mentioned)
    refine ⟨some filled, by simp only [rewrite?, matched, filling], ?_⟩
    rintro _ ⟨⟩
    refine Query.ground_fill filling fun number x bound => ?_
    -- what fills the destination was matched: the query itself, or an operand of it
    rcases binding.origin number x bound with before | rfl | below
    · cases before
    · exact ground
    · exact Query.ground_below below ground

theorem firstRewrite?_total {rules : List Rule} (closed : ∀ rule ∈ rules, rule.Closed)
    {q : Query} (ground : q.ground = true) :
    ∃ answer, firstRewrite? rules q = .ok answer ∧ ∀ q', answer = some q' → q'.ground = true := by
  induction rules with
  | nil => exact ⟨none, rfl, fun _ none => by cases none⟩
  | cons rule rules ih =>
    obtain ⟨answer, applied, grounded⟩ :=
      (closed rule List.mem_cons_self).rewrite?_total ground
    cases answer with
    | some q' => exact ⟨some q', by simp only [firstRewrite?, applied], grounded⟩
    | none =>
      obtain ⟨later, found, grounded⟩ := ih fun rule mem => closed rule (.tail _ mem)
      exact ⟨later, by simp only [firstRewrite?, applied, found], grounded⟩

/-- A property of all nodes is kept if it is kept where a query is rewritten. -/
theorem respects_allNodes (property : Query → Bool) (sorts concats : Bool) :
    (allNodes property sorts concats).Respects fun after before =>
      before = true → after = true where
  refl _ := id
  trans second first := fun x => second (first x)
  root h := h
  inter_left _ h := fun both => by simp_all [allNodes, allLeaves]
  inter_right _ _ _ h := fun both => by simp_all [allNodes, allLeaves]
  union_left _ h := fun both => by simp_all [allNodes, allLeaves]
  union_right _ _ _ h := fun both => by simp_all [allNodes, allLeaves]
  diff_left _ h := fun both => by simp_all [allNodes, allLeaves]
  diff_right _ _ _ h := fun both => by simp_all [allNodes, allLeaves]
  concat_left _ h := fun both => by simp_all [allNodes]
  concat_right _ _ _ h := fun both => by simp_all [allNodes]
  compl h := h
  sort h := fun both => by simp_all [allNodes, allLeaves]

/-- A property of all leaves is kept if it is kept where a query is rewritten. -/
theorem respects_allLeaves (property : Query → Bool) (sorts : Bool) :
    (allLeaves property sorts).Respects fun after before => before = true → after = true :=
  respects_allNodes property sorts true

namespace Pass

variable {pass : Pass}

/-- Rewriting with closed rules brings no placeholders into a query. -/
theorem Rewrites.ground (closed : ∀ rule ∈ pass.rules, rule.Closed) {q q' : Query}
    (rewriting : pass.Rewrites q q') : q.ground = true → q'.ground = true := by
  refine rewriting.related (respects_allLeaves _ _) ?_ fun _ _ => id
  intro q q' rewritten _ ground
  obtain ⟨answer, found, grounded⟩ := firstRewrite?_total closed ground
  rw [rewritten] at found
  cases found
  exact grounded q' rfl

theorem step?_total (closed : ∀ rule ∈ pass.rules, rule.Closed) (here : Progress) (i : Nat)
    {operand : Query} (ground : operand.ground = true) :
    ∃ answer, pass.step? here i operand = .ok answer := by
  obtain ⟨answer, found, -⟩ := firstRewrite?_total closed ground
  unfold step?
  split
  case h_1 => exact ⟨_, rfl⟩
  case h_2 =>
    split
    case isTrue => cases answer <;> simp only [found] <;> exact ⟨_, rfl⟩
    case isFalse => exact ⟨_, rfl⟩

/-- A pass with closed rules scans a query without placeholders without a fault. -/
theorem scan_total (closed : ∀ rule ∈ pass.rules, rule.Closed) (start here : Progress)
    (i : Nat) (reached : start.Reaches here) (ground : here.query.ground = true) :
    ∃ last, pass.scan start here i reached = .ok last := by
  induction here, i using Progress.scan_induction generalizing start with
  | step here i after inside beyond =>
    cases at_i : here.query.child? i with
    | none => exact ⟨_, scan_none at_i⟩
    | some operand =>
      -- where `scan` faults, a step or an inner scan has faulted, which none of them does
      obtain ⟨⟨scanned, below⟩, inner⟩ :=
        inside operand at_i (here.focus operand) (.refl _) (Query.ground_child? ground at_i)
      have walk := scans_of_scan _ _ _ _ _ inner
      have ground' := Rewrites.ground closed walk.rewrites (Query.ground_child? ground at_i)
      have resumed := Rewrites.ground closed (.inside at_i walk.rewrites) ground
      rw [scan_some at_i, inner]
      by_cases onEntry : pass.onEntry = true
      · rw [if_pos onEntry]
        obtain ⟨answer, step⟩ := step?_total closed here i (Query.ground_child? ground at_i)
        rw [step]
        cases answer with
        | none => exact beyond operand scanned at_i below start _ resumed
        | some found =>
          obtain ⟨next, lower⟩ := found
          have change := changes_of_step? step
          exact after next 0 lower start _
            (Rewrites.ground closed (change.rewrites_onEntry at_i onEntry) ground)
      · rw [if_neg onEntry]
        obtain ⟨answer, step⟩ := step?_total closed (here.resume i scanned) i ground'
        simp only [step]
        cases answer with
        | none => exact beyond operand scanned at_i below start _ resumed
        | some found =>
          obtain ⟨next, lower⟩ := found
          have rewriting := (changes_of_step? step).rewrites_onExit at_i
            (Bool.eq_false_iff.mpr onEntry) walk walk.rewrites
          exact after next 0 (Nat.lt_of_lt_of_le lower below.credit_le) start _
            (Rewrites.ground closed rewriting ground)

/-- A pass with closed rules runs without a fault on a query without placeholders. -/
theorem run_total (closed : ∀ rule ∈ pass.rules, rule.Closed) (start : Progress)
    (ground : start.query.ground = true) : ∃ last, pass.run start = .ok last := by
  induction start using Pass.run.induct pass with
  | case1 start fault failed =>
    obtain ⟨last, found⟩ := scan_total closed start start 0 (.refl _) ground
    rw [failed] at found
    cases found
  | case2 start between property scanned changed ih =>
    rw [run, scanned]
    simp only [dif_pos changed]
    exact ih (Rewrites.ground closed (scans_of_scan _ _ _ _ _ scanned).rewrites ground)
  | case3 start last property scanned unchanged =>
    rw [run, scanned]
    simp only [dif_neg unchanged]
    exact ⟨last, rfl⟩

end Pass

end Rewrite

end ExtentQuery
