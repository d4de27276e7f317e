import ExtentQuery.Metadata.Schema
import ExtentQuery.Proofs.Evaluation.Subtypes
import Mathlib.Order.Lattice.Nat

/-!
# How far away a subtype is

The search for the subtypes of a type lists each of them once, the nearer ones first, and it
comes to its end in a number of rounds that the registered pairs bound.

* `Metadata.DerivesIn`, `Metadata.distance` — the steps from a type to a subtype of a subtype,
  and the least number of them;
* `Metadata.Frontier` — what is visited and what is waiting while the types of one distance are
  visited;
* `Metadata.pairwise_distance_search`, `Metadata.nodup_search` — the order in which types are
  visited, and that none is visited twice;
* `Schema.searchWithin_eq` — the search in a bounded number of rounds;
* `Schema.closure_reaches` — all of this for the subtypes of a type that were registered in any
  order.

**Two distances in the queue.**  While the types of one distance are visited, the queue holds
types of this distance in front and those one step further away behind.  When nothing is left
in front, every type of this distance has been visited, and the part behind moves to the front.
Only then can a type that is one step further away be met for the first time, so the part that
moves misses none of them.
-/

namespace ExtentQuery

namespace Metadata

variable {m : Metadata} {type name : String} {found : List String}
  {queue here later : List { name : String // name ∈ m.subtypeNames }}
  {entry : { name : String // name ∈ m.subtypeNames }} {level : Nat}

/-! ### Distances -/

/-- Whether a type is reached from another one in so many steps to direct subtypes. -/
def DerivesIn (m : Metadata) (ancestor : String) : (steps : Nat) → (type : String) → Prop
  | 0, type => type = ancestor
  | steps + 1, type => ∃ parent, m.DerivesIn ancestor steps parent ∧ type ∈ m.directSubtypes parent

/-- The least number of steps in which a type is reached from another one. -/
noncomputable def distance (m : Metadata) (ancestor type : String) : Nat :=
  sInf { steps | m.DerivesIn ancestor steps type }

theorem distance_le {steps : Nat} (reached : m.DerivesIn type steps name) :
    m.distance type name ≤ steps :=
  Nat.sInf_le reached

theorem derivesIn_distance {steps : Nat} (reached : m.DerivesIn type steps name) :
    m.DerivesIn type (m.distance type name) name :=
  Nat.sInf_mem (s := { steps | m.DerivesIn type steps name }) ⟨steps, reached⟩

/-! ### The order of visits -/

/-- What is known while the types of the distance `level + 1` are visited: `here` is what is
left of them, and `later` is what was met in the meantime. -/
structure Frontier (m : Metadata) (type : String) (level : Nat) (found : List String)
    (here later : List { name : String // name ∈ m.subtypeNames }) : Prop where
  nearer : ∀ steps ≤ level, ∀ name, m.DerivesIn type steps name → name ∈ type :: found
  complete : ∀ name, m.DerivesIn type (level + 1) name →
    name ∈ type :: found ∨ ∃ entry ∈ here, entry.1 = name
  pending : ∀ parent ∈ type :: found, ∀ entry ∈ m.subtypes parent,
    entry.1 ∈ type :: found ∨ entry ∈ here ++ later
  reached : ∀ entry ∈ here, m.DerivesIn type (level + 1) entry.1
  reachedLater : ∀ entry ∈ later, m.DerivesIn type (level + 2) entry.1
  distance_le : ∀ name ∈ found, m.distance type name ≤ level + 1
  ordered : found.Pairwise fun a b => m.distance type a ≤ m.distance type b

namespace Frontier

/-- The search begins with the direct subtypes. -/
theorem start (m : Metadata) (type : String) : m.Frontier type 0 [] (m.subtypes type) [] where
  nearer steps none name reached := by
    obtain rfl := Nat.le_zero.mp none
    exact List.mem_singleton.mpr reached
  complete name reached := by
    obtain ⟨parent, rfl, direct⟩ := reached
    exact .inr (mem_directSubtypes.mp direct)
  pending parent mem entry direct := by
    obtain rfl := List.mem_singleton.mp mem
    exact .inr (List.mem_append_left _ direct)
  reached entry direct := ⟨type, rfl, mem_directSubtypes.mpr ⟨entry, direct, rfl⟩⟩
  reachedLater _ none := absurd none List.not_mem_nil
  distance_le _ none := absurd none List.not_mem_nil
  ordered := .nil

/-- Nothing is left of one distance, so all types of the next one are waiting. -/
theorem advance (frontier : m.Frontier type level found [] later) :
    m.Frontier type (level + 1) found later [] where
  nearer steps le name reached := by
    rcases Nat.le_or_eq_of_le_succ le with nearer | rfl
    · exact frontier.nearer steps nearer name reached
    · exact (frontier.complete name reached).resolve_right nofun
  complete name reached := by
    obtain ⟨parent, before, below⟩ := reached
    obtain ⟨entry, direct, rfl⟩ := mem_directSubtypes.mp below
    have visited := (frontier.complete parent before).resolve_right nofun
    exact (frontier.pending parent visited entry direct).imp_right fun waiting =>
      ⟨entry, waiting, rfl⟩
  pending parent mem entry direct := by
    rw [List.append_nil]
    exact frontier.pending parent mem entry direct
  reached := frontier.reachedLater
  reachedLater _ none := absurd none List.not_mem_nil
  distance_le name mem := Nat.le_succ_of_le (frontier.distance_le name mem)
  ordered := frontier.ordered

/-- The first type in the queue is one of the distance that is visited now, or of the next
one. -/
theorem exists_first (frontier : m.Frontier type level found here later)
    (first : here ++ later = entry :: queue) :
    ∃ level here' later', m.Frontier type level found (entry :: here') later' ∧
      queue = here' ++ later' := by
  cases here with
  | cons entry' here' =>
    obtain ⟨rfl, rfl⟩ := List.cons.inj first
    exact ⟨level, here', later, frontier, rfl⟩
  | nil =>
    obtain rfl : later = entry :: queue := first
    exact ⟨level + 1, queue, [], frontier.advance, (List.append_nil queue).symm⟩

/-- A type that has been visited is passed over. -/
theorem skip (frontier : m.Frontier type level found (entry :: here) later)
    (visited : entry.1 ∈ type :: found) : m.Frontier type level found here later where
  nearer := frontier.nearer
  complete name reached := by
    rcases frontier.complete name reached with known | ⟨waiting, mem, rfl⟩
    · exact .inl known
    · rcases List.mem_cons.mp mem with rfl | mem
      · exact .inl visited
      · exact .inr ⟨waiting, mem, rfl⟩
  pending parent mem entry' direct := by
    rcases frontier.pending parent mem entry' direct with known | waiting
    · exact .inl known
    · rcases List.mem_cons.mp waiting with rfl | waiting
      · exact .inl visited
      · exact .inr waiting
  reached entry' mem := frontier.reached entry' (.tail _ mem)
  reachedLater := frontier.reachedLater
  distance_le := frontier.distance_le
  ordered := frontier.ordered

/-- A type that is visited for the first time is of the distance that is visited now. -/
theorem distance_eq (frontier : m.Frontier type level found (entry :: here) later)
    (fresh : entry.1 ∉ type :: found) : m.distance type entry.1 = level + 1 := by
  have reached := frontier.reached entry List.mem_cons_self
  refine Nat.le_antisymm (Metadata.distance_le reached) (Nat.succ_le_of_lt ?_)
  refine Nat.lt_of_not_le fun nearer => fresh ?_
  exact frontier.nearer _ nearer _ (derivesIn_distance reached)

/-- The direct subtypes of a type that is visited go to the end of the queue. -/
theorem visit (frontier : m.Frontier type level found (entry :: here) later)
    (fresh : entry.1 ∉ type :: found) :
    m.Frontier type level (found ++ [entry.1]) here (later ++ m.subtypes entry.1) := by
  have distance := frontier.distance_eq fresh
  have grows : ∀ {name}, name ∈ type :: found → name ∈ type :: (found ++ [entry.1]) := by
    intro name mem
    rw [← List.cons_append]
    exact List.mem_append_left _ mem
  have visited : entry.1 ∈ type :: (found ++ [entry.1]) := by
    rw [← List.cons_append]
    exact List.mem_append_right _ List.mem_cons_self
  constructor
  case nearer => exact fun steps le name reached => grows (frontier.nearer steps le name reached)
  case complete =>
    intro name reached
    rcases frontier.complete name reached with known | ⟨waiting, mem, rfl⟩
    · exact .inl (grows known)
    · rcases List.mem_cons.mp mem with rfl | mem
      · exact .inl visited
      · exact .inr ⟨waiting, mem, rfl⟩
  case pending =>
    intro parent mem entry' direct
    rw [← List.append_assoc]
    rw [← List.cons_append, List.mem_append, List.mem_singleton] at mem
    rcases mem with mem | rfl
    · rcases frontier.pending parent mem entry' direct with known | waiting
      · exact .inl (grows known)
      · rcases List.mem_cons.mp waiting with rfl | waiting
        · exact .inl visited
        · exact .inr (List.mem_append_left _ waiting)
    · exact .inr (List.mem_append_right _ direct)
  case reached => exact fun entry' mem => frontier.reached entry' (.tail _ mem)
  case reachedLater =>
    intro entry' mem
    rcases List.mem_append.mp mem with mem | direct
    · exact frontier.reachedLater entry' mem
    · exact ⟨entry.1, frontier.reached entry List.mem_cons_self,
        mem_directSubtypes.mpr ⟨entry', direct, rfl⟩⟩
  case distance_le =>
    intro name mem
    rcases List.mem_append.mp mem with mem | mem
    · exact frontier.distance_le name mem
    · rw [List.mem_singleton.mp mem, distance]
  case ordered =>
    refine List.pairwise_append.mpr ⟨frontier.ordered, List.pairwise_singleton _ _, ?_⟩
    intro name mem other mem'
    rw [List.mem_singleton.mp mem', distance]
    exact frontier.distance_le name mem

end Frontier

/-- The search visits the nearer types first. -/
theorem pairwise_distance_search (frontier : m.Frontier type level found here later)
    (waiting : queue = here ++ later) :
    (m.search type queue found).Pairwise fun a b => m.distance type a ≤ m.distance type b := by
  induction queue, found using search.induct m type generalizing level here later with
  | case1 found =>
    rw [search]
    exact frontier.ordered
  | case2 found next queue skip ih =>
    obtain ⟨level, here, later, frontier, rfl⟩ := frontier.exists_first waiting.symm
    rw [search, dif_pos skip]
    exact ih (frontier.skip (List.mem_cons.mpr skip)) rfl
  | case3 found next queue visit ih =>
    obtain ⟨level, here, later, frontier, rfl⟩ := frontier.exists_first waiting.symm
    rw [search, dif_neg visit]
    exact ih (frontier.visit fun known => visit (List.mem_cons.mp known)) (List.append_assoc ..)

/-- The search visits no type twice, and it does not visit the type that it starts from. -/
theorem nodup_search (nodup : (type :: found).Nodup) :
    (type :: m.search type queue found).Nodup := by
  induction queue, found using search.induct m type with
  | case1 found =>
    rw [search]
    exact nodup
  | case2 found next queue skip ih =>
    rw [search, dif_pos skip]
    exact ih nodup
  | case3 found next queue visit ih =>
    rw [search, dif_neg visit]
    refine ih ?_
    rw [← List.cons_append]
    refine nodup.append (List.nodup_singleton _) (List.disjoint_singleton.mpr fun known => ?_)
    exact visit (List.mem_cons.mp known)

theorem nodup_closure (m : Metadata) (type : String) : (type :: m.closure type).Nodup :=
  nodup_search (List.nodup_singleton type)

/-- The closure of a type is what is reached from it in at least one step, without the type
itself. -/
theorem mem_closure_iff : name ∈ m.closure type ↔
    name ≠ type ∧ Relation.TransGen (fun a b => b ∈ m.directSubtypes a) type name := by
  have outside : type ∉ m.closure type := (List.nodup_cons.mp (m.nodup_closure type)).1
  have family : name = type ∨ name ∈ m.closure type ↔ m.Derives type name := by
    rw [← mem_family_iff, List.mem_cons]
  rw [Derives, Relation.reflTransGen_iff_eq_or_transGen] at family
  constructor
  · intro mem
    have other : name ≠ type := fun same => outside (same ▸ mem)
    exact ⟨other, (family.mp (.inr mem)).resolve_left other⟩
  · rintro ⟨other, reached⟩
    exact (family.mpr (.inr reached)).resolve_left other

/-! ### Rounds -/

/-- The search in so many rounds at most: `none` if something is waiting after the last one. -/
def searchWithin (m : Metadata) (type : String) : (rounds : Nat) →
    (queue : List { name : String // name ∈ m.subtypeNames }) → (found : List String) →
    Option (List String)
  | _, [], found => some found
  | 0, _ :: _, _ => none
  | rounds + 1, next :: queue, found =>
    if next.1 = type ∨ next.1 ∈ found then m.searchWithin type rounds queue found
    else m.searchWithin type rounds (queue ++ m.subtypes next.1) (found ++ [next.1])

end Metadata

namespace Schema

variable {s : Schema} {type : String} {found : List String}

theorem length_childrenOf (s : Schema) (type : String) :
    (s.childrenOf type).length = s.subtypes.countP (·.1 = type) := by
  rw [childrenOf, List.length_map, ← List.countP_eq_length_filter]
  exact List.countP_attach (p := fun pair : String × String => pair.1 = type)

/-- Visiting a type meets the pairs in which it is the parent, which have not been met before. -/
theorem countP_visit {name : String} (pairs : List (String × String))
    (fresh : name ∉ type :: found) :
    pairs.countP (·.1 = name) + pairs.countP (·.1 ∉ type :: (found ++ [name]))
      = pairs.countP (·.1 ∉ type :: found) := by
  induction pairs with
  | nil => rfl
  | cons pair pairs ih =>
    have member : pair.1 ∈ type :: (found ++ [name]) ↔ pair.1 ∈ type :: found ∨ pair.1 = name := by
      rw [← List.cons_append, List.mem_append, List.mem_singleton]
    simp only [List.countP_cons, member, decide_eq_true_eq, not_or]
    by_cases here : pair.1 = name
    · rw [here, if_pos rfl, if_neg (fun both => both.2 rfl), if_pos fresh]
      omega
    · simp only [here, not_false_iff, and_true, if_false]
      omega

/-- The search comes to its end within as many rounds as there are types waiting and pairs whose
parent has not been visited. -/
theorem searchWithin_eq {queue : List { name : String // name ∈ s.metadata.subtypeNames }}
    {rounds : Nat}
    (enough : queue.length + s.subtypes.countP (·.1 ∉ type :: found) ≤ rounds) :
    s.metadata.searchWithin type rounds queue found
      = some (s.metadata.search type queue found) := by
  induction queue, found using Metadata.search.induct s.metadata type generalizing rounds with
  | case1 found =>
    rw [Metadata.search]
    cases rounds <;> rfl
  | case2 found next queue skip ih =>
    rw [List.length_cons] at enough
    obtain ⟨rounds, rfl⟩ : ∃ n, rounds = n + 1 := ⟨rounds - 1, by omega⟩
    rw [Metadata.search, dif_pos skip, Metadata.searchWithin, if_pos skip]
    exact ih (by omega)
  | case3 found next queue visit ih =>
    rw [List.length_cons] at enough
    obtain ⟨rounds, rfl⟩ : ∃ n, rounds = n + 1 := ⟨rounds - 1, by omega⟩
    rw [Metadata.search, dif_neg visit, Metadata.searchWithin, if_neg visit]
    refine ih ?_
    have met : (s.metadata.subtypes next.1).length = s.subtypes.countP (·.1 = next.1) :=
      s.length_childrenOf next.1
    have fresh : next.1 ∉ type :: found := fun known => visit (List.mem_cons.mp known)
    have rest := countP_visit s.subtypes fresh
    rw [List.length_append, met]
    omega

/-! ### Registered subtypes -/

/-- The schema in which some pairs of a parent and a direct subtype were registered one after the
other. -/
def ofSubtypes (pairs : List (String × String)) : Schema :=
  pairs.foldl (fun s pair => s.addSubtype pair.1 pair.2) .empty

theorem subtypes_ofSubtypes (pairs : List (String × String)) :
    (ofSubtypes pairs).subtypes = pairs := by
  suffices registered : ∀ s : Schema,
      (pairs.foldl (fun s pair => s.addSubtype pair.1 pair.2) s).subtypes = s.subtypes ++ pairs from
    registered .empty
  induction pairs with
  | nil => exact fun s => (List.append_nil s.subtypes).symm
  | cons pair pairs ih =>
    intro s
    rw [List.foldl_cons, ih, addSubtype, List.append_assoc, List.singleton_append]

theorem mem_directSubtypes_iff {parent child : String} :
    child ∈ s.metadata.directSubtypes parent ↔ (parent, child) ∈ s.subtypes := by
  rw [Metadata.mem_directSubtypes]
  constructor
  · rintro ⟨entry, direct, rfl⟩
    obtain ⟨pair, mem, rfl⟩ := List.mem_map.mp direct
    obtain rfl : pair.1.1 = parent := of_decide_eq_true (List.mem_filter.mp mem).2
    exact pair.2
  · intro mem
    refine ⟨⟨child, List.mem_map_of_mem mem⟩, List.mem_map.mpr ⟨⟨_, mem⟩, ?_, rfl⟩, rfl⟩
    exact List.mem_filter.mpr ⟨List.mem_attach _ _, decide_eq_true rfl⟩

/-- The search below a type comes to its end within as many rounds as there are pairs. -/
theorem searchWithin_closure (s : Schema) (type : String) :
    s.metadata.searchWithin type s.subtypes.length (s.metadata.subtypes type) []
      = some (s.metadata.closure type) := by
  refine s.searchWithin_eq ?_
  have met : (s.metadata.subtypes type).length = s.subtypes.countP (·.1 = type) :=
    s.length_childrenOf type
  have parted := List.length_eq_countP_add_countP (l := s.subtypes) (fun pair => pair.1 = type)
  simp only [decide_eq_true_eq, List.mem_singleton] at parted ⊢
  omega

/-- **The closure is what can be reached.**  Whatever pairs were registered and in whichever
order, be it with cycles, with types below themselves, with several parents or with pairs that
are repeated: the search below a type ends within as many rounds as there are pairs.  It lists
no type twice, none before a nearer one, and exactly the types other than the first one that
are reached from it in one or more steps to direct subtypes.  So the subtype relation is
reflexive and transitive. -/
theorem closure_reaches (pairs : List (String × String)) (type : String) :
    (∀ parent child, child ∈ (ofSubtypes pairs).metadata.directSubtypes parent ↔
      (parent, child) ∈ pairs) ∧
    (ofSubtypes pairs).metadata.searchWithin type pairs.length
        ((ofSubtypes pairs).metadata.subtypes type) []
      = some ((ofSubtypes pairs).metadata.closure type) ∧
    ((ofSubtypes pairs).metadata.closure type).Nodup ∧
    (((ofSubtypes pairs).metadata.closure type).Pairwise fun a b =>
      (ofSubtypes pairs).metadata.distance type a ≤ (ofSubtypes pairs).metadata.distance type b) ∧
    (∀ name, name ∈ (ofSubtypes pairs).metadata.closure type ↔ name ≠ type ∧
      Relation.TransGen (fun a b => b ∈ (ofSubtypes pairs).metadata.directSubtypes a) type name) ∧
    (∀ a, (ofSubtypes pairs).metadata.isSubtype a a = true) ∧
    ∀ a b c, (ofSubtypes pairs).metadata.isSubtype a b = true →
      (ofSubtypes pairs).metadata.isSubtype b c = true →
      (ofSubtypes pairs).metadata.isSubtype a c = true := by
  let m := (ofSubtypes pairs).metadata
  refine ⟨fun parent child => ?_, ?_, (List.nodup_cons.mp (m.nodup_closure type)).2, ?_,
    fun name => Metadata.mem_closure_iff, m.isSubtype_self, fun a b c below above => ?_⟩
  · rw [mem_directSubtypes_iff, subtypes_ofSubtypes]
  · have ended := (ofSubtypes pairs).searchWithin_closure type
    rwa [subtypes_ofSubtypes] at ended
  · exact Metadata.pairwise_distance_search (.start m type) (List.append_nil _).symm
  · rw [Metadata.isSubtype_iff] at below above ⊢
    exact above.trans below

/-- Two parents of one type, a type below itself, a cycle through the first type, and a pair that
is registered twice. -/
def tangled : List (String × String) :=
  [("Thing", "Place"), ("Thing", "Agent"), ("Place", "Town"), ("Agent", "Town"), ("Town", "Thing"),
    ("Place", "Place"), ("Thing", "Place")]

/-- The subtypes of a type in a cycle, and the subtype relation within it. -/
theorem closure_reaches_tangled :
    (ofSubtypes tangled).metadata.closure "Thing" = ["Place", "Agent", "Town"] ∧
      (ofSubtypes tangled).metadata.isSubtype "Town" "Agent" = true ∧
      (ofSubtypes tangled).metadata.isSubtype "Agent" "Place" = true ∧
      (ofSubtypes tangled).metadata.isSubtype "Town" "Place" = true := by
  have reaches := closure_reaches tangled
  have things : (ofSubtypes tangled).metadata.closure "Thing" = ["Place", "Agent", "Town"] :=
    Option.some.inj ((reaches "Thing").2.1.symm.trans (by decide +kernel))
  have agents : (ofSubtypes tangled).metadata.closure "Agent" = ["Town", "Thing", "Place"] :=
    Option.some.inj ((reaches "Agent").2.1.symm.trans (by decide +kernel))
  have places : (ofSubtypes tangled).metadata.closure "Place" = ["Town", "Thing", "Agent"] :=
    Option.some.inj ((reaches "Place").2.1.symm.trans (by decide +kernel))
  have below : (ofSubtypes tangled).metadata.isSubtype "Town" "Agent" = true := by
    rw [Metadata.isSubtype, agents]
    decide
  have above : (ofSubtypes tangled).metadata.isSubtype "Agent" "Place" = true := by
    rw [Metadata.isSubtype, places]
    decide
  exact ⟨things, below, above, (reaches "Thing").2.2.2.2.2.2 "Town" "Agent" "Place" below above⟩

end Schema

end ExtentQuery
