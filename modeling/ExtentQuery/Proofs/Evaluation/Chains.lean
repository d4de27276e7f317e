import ExtentQuery.Proofs.Evaluation.Sorting
import Mathlib.Data.Set.Card

/-!
# Chains of subtypes

A type may be reached from another one along several chains of direct subtypes: it may have
several parents, and a subtype may be registered twice below the same parent.  An unfolded
hierarchy (`Metadata.Unfolds`) lists a type once for each chain that leads to it.

* `Metadata.follow` — the type at the end of a chain;
* `Metadata.Within` — a hierarchy of so many generations at most;
* `Metadata.AcyclicBelow` — no type below a given one derives from a subtype of its own;
* `Metadata.acyclicBelow_iff_within`, `Metadata.AcyclicBelow.within` — such a hierarchy has an
  end, and no more generations than there are subtypes;
* `Metadata.Within.exists_unfolds` — a hierarchy with an end can be unfolded;
* `Metadata.Unfolds.count_eq_ncard` — how often an unfolded hierarchy lists a type;
* `Metadata.exists_tree_iff` — the trees are the hierarchies with one chain to each type.
-/

namespace ExtentQuery.Metadata

variable {m : Metadata} {type name : String} {types names below : List String}

/-- The type at the end of a chain of direct subtypes.  A chain says at which place each type
stands among the direct subtypes of the one before. -/
def follow (m : Metadata) : (type : String) → (chain : List Nat) → Option String
  | type, [] => some type
  | type, place :: chain => (m.directSubtypes type)[place]?.bind fun subtype => m.follow subtype chain

/-- The type at the end of a chain that begins with one of some types. -/
def followFrom (m : Metadata) (types : List String) : (chain : List Nat) → Option String
  | [] => none
  | place :: chain => types[place]?.bind fun type => m.follow type chain

theorem follow_append (type : String) (chain rest : List Nat) :
    m.follow type (chain ++ rest) = (m.follow type chain).bind (m.follow · rest) := by
  induction chain generalizing type with
  | nil => rfl
  | cons place chain ih =>
    simp only [List.cons_append, follow, Option.bind_assoc, ih]

/-- The types that derive from a type are those at the ends of chains. -/
theorem derives_iff_follow : m.Derives type name ↔ ∃ chain, m.follow type chain = some name := by
  constructor
  · intro derives
    induction derives with
    | refl => exact ⟨[], rfl⟩
    | @tail a b _ direct ih =>
      obtain ⟨chain, ends⟩ := ih
      obtain ⟨place, here⟩ := List.mem_iff_getElem?.mp direct
      refine ⟨chain ++ [place], ?_⟩
      rw [follow_append, ends]
      simp only [Option.bind_some, follow, here]
  · rintro ⟨chain, ends⟩
    induction chain generalizing type with
    | nil =>
      cases ends
      exact .refl
    | cons place chain ih =>
      obtain ⟨subtype, here, ends⟩ := Option.bind_eq_some_iff.mp ends
      exact .head (List.mem_of_getElem? here) (ih ends)

/-! ### Hierarchies without cycles -/

/-- Whether the subtypes of a type, at any distance, are at most so many generations, the type
itself included. -/
def Within (m : Metadata) : (levels : Nat) → (type : String) → Prop
  | 0, _ => False
  | levels + 1, type => ∀ subtype ∈ m.directSubtypes type, m.Within levels subtype

theorem Within.mono {levels levels' : Nat} (within : m.Within levels type)
    (le : levels ≤ levels') : m.Within levels' type := by
  induction levels' generalizing levels type with
  | zero =>
    obtain rfl := Nat.le_zero.mp le
    exact within
  | succ levels' ih =>
    cases levels with
    | zero => exact within.elim
    | succ levels =>
      exact fun subtype direct => ih (within subtype direct) (Nat.le_of_succ_le_succ le)

theorem Within.derives {levels : Nat} (within : m.Within levels type) (derives : m.Derives type name) :
    m.Within levels name := by
  induction derives with
  | refl => exact within
  | tail _ direct ih =>
    cases levels with
    | zero => exact ih.elim
    | succ levels => exact (ih _ direct).mono (Nat.le_succ levels)

/-- Whether no type below a given one, or that type itself, derives from a subtype of its
own. -/
def AcyclicBelow (m : Metadata) (type : String) : Prop :=
  ∀ a, m.Derives type a → ∀ b ∈ m.directSubtypes a, ¬ m.Derives b a

/-- The types that derive from a type. -/
def family (m : Metadata) (type : String) : Finset String :=
  (type :: m.closure type).toFinset

theorem mem_family : name ∈ m.family type ↔ m.Derives type name := by
  rw [family, List.mem_toFinset, mem_family_iff]

theorem mem_subtypeNames {a b : String} (direct : b ∈ m.directSubtypes a) :
    b ∈ m.subtypeNames := by
  obtain ⟨entry, -, rfl⟩ := mem_directSubtypes.mp direct
  exact entry.2

theorem card_family_le (type : String) : (m.family type).card ≤ m.subtypeNames.length + 1 := by
  have inside : m.family type ⊆ (type :: m.subtypeNames).toFinset := by
    intro name mem
    rw [List.mem_toFinset]
    rcases (mem_family.mp mem).cases_tail with rfl | ⟨parent, -, direct⟩
    · exact List.mem_cons_self
    · exact .tail _ (mem_subtypeNames direct)
  exact (Finset.card_le_card inside).trans (List.toFinset_card_le _)

namespace AcyclicBelow

theorem subtype (acyclic : m.AcyclicBelow type) {subtype : String}
    (direct : subtype ∈ m.directSubtypes type) : m.AcyclicBelow subtype :=
  fun a derives => acyclic a (.head direct derives)

theorem card_family_lt (acyclic : m.AcyclicBelow type) {subtype : String}
    (direct : subtype ∈ m.directSubtypes type) :
    (m.family subtype).card < (m.family type).card := by
  refine Finset.card_lt_card (Finset.ssubset_iff_of_subset ?_ |>.mpr ⟨type, ?_, ?_⟩)
  · exact fun name mem => mem_family.mpr (.head direct (mem_family.mp mem))
  · exact mem_family.mpr .refl
  · exact fun mem => acyclic type .refl subtype direct (mem_family.mp mem)

/-- Without cycles, there are no more generations than subtypes, and the type itself. -/
theorem within (acyclic : m.AcyclicBelow type) : m.Within (m.subtypeNames.length + 1) type := by
  suffices generations : ∀ (levels : Nat) (type : String), m.AcyclicBelow type →
      (m.family type).card ≤ levels → m.Within levels type from
    generations _ type acyclic (card_family_le type)
  intro levels
  induction levels with
  | zero =>
    intro type _ few
    have here : type ∈ m.family type := mem_family.mpr .refl
    exact absurd (Finset.card_pos.mpr ⟨type, here⟩) (Nat.not_lt.mpr few)
  | succ levels ih =>
    intro type acyclic few subtype direct
    refine ih subtype (acyclic.subtype direct) ?_
    have := acyclic.card_family_lt direct
    omega

end AcyclicBelow

/-- A type with a subtype from which it derives would have more and more generations below it. -/
theorem Within.not_derives {levels : Nat} (within : m.Within levels type) :
    ∀ subtype ∈ m.directSubtypes type, ¬ m.Derives subtype type := by
  induction levels with
  | zero => exact within.elim
  | succ levels ih =>
    intro subtype direct derives
    exact ih ((within subtype direct).derives derives) subtype direct derives

/-- The hierarchies without cycles are those with so many generations at most. -/
theorem acyclicBelow_iff_within : m.AcyclicBelow type ↔ ∃ levels, m.Within levels type :=
  ⟨fun acyclic => ⟨_, acyclic.within⟩,
    fun ⟨_, within⟩ _ derives => (within.derives derives).not_derives⟩

theorem exists_unfolds_of_each (types : List String)
    (each : ∀ type ∈ types, ∃ below, m.Unfolds (m.directSubtypes type) below) :
    ∃ names, m.Unfolds types names := by
  induction types with
  | nil => exact ⟨[], .nil⟩
  | cons type types ih =>
    obtain ⟨below, unfolds⟩ := each type List.mem_cons_self
    obtain ⟨names, rest⟩ := ih fun other mem => each other (.tail _ mem)
    exact ⟨_, .cons unfolds rest⟩

theorem Within.exists_unfolds {levels : Nat} (within : m.Within levels type) :
    ∃ below, m.Unfolds (m.directSubtypes type) below := by
  induction levels generalizing type with
  | zero => exact within.elim
  | succ levels ih => exact exists_unfolds_of_each _ fun subtype direct => ih (within subtype direct)

/-- A type unfolds into itself and what its subtypes unfold into. -/
theorem Unfolds.single (unfolds : m.Unfolds (m.directSubtypes type) below) :
    m.Unfolds [type] (type :: below) := by
  have whole := Unfolds.cons unfolds .nil
  rwa [List.append_nil] at whole

/-! ### Counting chains -/

/-- Whether some chains are all chains to types, each of them once, and end at given types. -/
structure Charts (follow : List Nat → Option String) (chains : List (List Nat))
    (names : List String) : Prop where
  nodup : chains.Nodup
  ends : chains.map follow = names.map some
  complete : ∀ chain name, follow chain = some name → chain ∈ chains

theorem Charts.exists_of_mem {follow : List Nat → Option String} {chains : List (List Nat)}
    (charts : Charts follow chains names) {chain : List Nat} (mem : chain ∈ chains) :
    ∃ name, follow chain = some name := by
  have ends : follow chain ∈ names.map some := charts.ends ▸ List.mem_map_of_mem mem
  obtain ⟨name, -, same⟩ := List.mem_map.mp ends
  exact ⟨name, same.symm⟩

/-- The chains from a type are the empty one and those from its subtypes. -/
theorem Charts.ofType {chains : List (List Nat)}
    (charts : Charts (m.followFrom (m.directSubtypes type)) chains below) :
    Charts (m.follow type) ([] :: chains) (type :: below) where
  nodup := by
    refine List.nodup_cons.mpr ⟨fun mem => ?_, charts.nodup⟩
    obtain ⟨name, none⟩ := charts.exists_of_mem mem
    cases none
  ends := by
    rw [List.map_cons, List.map_cons, ← charts.ends]
    refine congrArg (some type :: ·) (List.map_congr_left fun chain mem => ?_)
    obtain ⟨name, ends⟩ := charts.exists_of_mem mem
    cases chain with
    | nil => cases ends
    | cons => rfl
  complete chain name ends := by
    cases chain with
    | nil => exact List.mem_cons_self
    | cons place chain => exact .tail _ (charts.complete _ name ends)

/-- A chain that begins one place later. -/
def later : List Nat → List Nat
  | [] => []
  | place :: chain => (place + 1) :: chain

/-- The chains from some types are those from the first one and those from the others. -/
theorem Charts.cons {chains chains' : List (List Nat)} {names' : List String}
    (first : Charts (m.follow type) chains names)
    (rest : Charts (m.followFrom types) chains' names') :
    Charts (m.followFrom (type :: types)) (chains.map (0 :: ·) ++ chains'.map later)
      (names ++ names') where
  nodup := by
    refine List.nodup_append.mpr ⟨?_, ?_, ?_⟩
    · exact first.nodup.map fun _ _ same => (List.cons.inj same).2
    · refine rest.nodup.map_on fun chain mem chain' mem' same => ?_
      obtain ⟨name, ends⟩ := rest.exists_of_mem mem
      obtain ⟨name', ends'⟩ := rest.exists_of_mem mem'
      match chain, chain', ends, ends', same with
      | _ :: _, _ :: _, _, _, rfl => rfl
    · rintro _ mem _ mem' rfl
      obtain ⟨chain, -, rfl⟩ := List.mem_map.mp mem
      obtain ⟨chain', -, same⟩ := List.mem_map.mp mem'
      cases chain' <;> cases same
  ends := by
    rw [List.map_append, List.map_map, List.map_map, List.map_append, ← first.ends, ← rest.ends]
    refine congrArg₂ (· ++ ·) (List.map_congr_left fun chain _ => rfl)
      (List.map_congr_left fun chain mem => ?_)
    obtain ⟨name, ends⟩ := rest.exists_of_mem mem
    cases chain with
    | nil => cases ends
    | cons => rfl
  complete chain name ends := by
    match chain, ends with
    | 0 :: chain, ends =>
      exact List.mem_append_left _ (List.mem_map_of_mem (first.complete chain name ends))
    | (place + 1) :: chain, ends =>
      exact List.mem_append_right _
        (List.mem_map_of_mem (f := later) (rest.complete (place :: chain) name ends))

/-- An unfolded list has a chain for each of its types. -/
theorem Unfolds.exists_charts (unfolds : m.Unfolds types names) :
    ∃ chains, Charts (m.followFrom types) chains names := by
  induction unfolds with
  | nil =>
    refine ⟨[], .nil, rfl, fun chain name ends => ?_⟩
    cases chain <;> cases ends
  | cons _ _ ihBelow ih =>
    obtain ⟨chains, below⟩ := ihBelow
    obtain ⟨chains', rest⟩ := ih
    exact ⟨_, below.ofType.cons rest⟩

/-- An unfolded hierarchy lists a type once for each chain that leads to it. -/
theorem Unfolds.count_eq_ncard (unfolds : m.Unfolds (m.directSubtypes type) below) (name : String) :
    (type :: below).count name = {chain | m.follow type chain = some name}.ncard := by
  obtain ⟨chains, charts⟩ := unfolds.exists_charts
  have whole := charts.ofType
  have leading : {chain | m.follow type chain = some name}
      = (([] :: chains).filter fun chain => m.follow type chain == some name).toFinset := by
    ext chain
    simp only [Set.mem_ofPred_eq, List.coe_toFinset, List.mem_filter, beq_iff_eq]
    exact ⟨fun ends => ⟨whole.complete chain name ends, ends⟩, And.right⟩
  have counted : ((type :: below).map some).count (some name) = (type :: below).count name :=
    List.count_map_of_injective _ _ (Option.some_injective _) _
  rw [leading, Set.ncard_coe_finset, List.toFinset_card_of_nodup (whole.nodup.filter _),
    ← List.countP_eq_length_filter, ← counted, ← whole.ends, List.count, List.countP_map]
  rfl

/-! ### One chain to each type -/

/-- Whether there is one chain at most from a type to any type. -/
def SingleChains (m : Metadata) (type : String) : Prop :=
  ∀ ⦃chain chain' : List Nat⦄ ⦃name : String⦄, m.follow type chain = some name →
    m.follow type chain' = some name → chain = chain'

/-- Along a cycle, there would be a second chain to the type at its end. -/
theorem SingleChains.acyclicBelow (single : m.SingleChains type) : m.AcyclicBelow type := by
  intro a derives b direct back
  obtain ⟨chain, ends⟩ := derives_iff_follow.mp derives
  obtain ⟨place, here⟩ := List.mem_iff_getElem?.mp direct
  obtain ⟨rest, returns⟩ := derives_iff_follow.mp back
  have around : m.follow type (chain ++ place :: rest) = some a := by
    rw [follow_append, ends, Option.bind_some, follow, here, Option.bind_some, returns]
  have same := congrArg List.length (single ends around)
  rw [List.length_append, List.length_cons] at same
  omega

/-- The trees are the hierarchies with one chain to each type. -/
theorem exists_tree_iff : (∃ names, m.Tree type names) ↔ m.SingleChains type := by
  constructor
  · rintro ⟨names, unfolds, nodup⟩ chain chain' name ends ends'
    cases unfolds with
    | @cons _ _ below rest unfolds none =>
      cases none
      rw [List.append_nil] at nodup
      have once := unfolds.count_eq_ncard name
      rw [List.count_eq_one_of_mem nodup] at once
      · obtain ⟨only, single⟩ := Set.ncard_eq_one.mp once.symm
        have here : chain ∈ {chain | m.follow type chain = some name} := ends
        have here' : chain' ∈ {chain | m.follow type chain = some name} := ends'
        rw [single] at here here'
        exact here.trans here'.symm
      · have whole : m.Tree type (type :: below) := ⟨unfolds.single, nodup⟩
        exact whole.mem_iff.mpr (mem_family_iff.mpr (derives_iff_follow.mpr ⟨chain, ends⟩))
  · intro single
    obtain ⟨below, unfolds⟩ := single.acyclicBelow.within.exists_unfolds
    refine ⟨type :: below, unfolds.single, ?_⟩
    refine List.nodup_iff_count_le_one.mpr fun name => ?_
    rw [unfolds.count_eq_ncard name]
    have one : {chain | m.follow type chain = some name}.Subsingleton :=
      fun chain ends chain' ends' => single ends ends'
    exact (Set.ncard_le_one one.finite).mpr fun chain ends chain' ends' => single ends ends'

end ExtentQuery.Metadata
