import ExtentQuery.Proofs.Sorting.Locality
import ExtentQuery.Proofs.Sorting.Ties
import Mathlib.Data.List.Sort

/-!
# What a merge of sources answers

A merge reads its sources to their ends.  So it faults if anything in them cannot be read, and
otherwise it answers an interleaving of them.  Of sources that are in the order of their keys,
this is the one that a stable sort makes of the sources one after the other.

* `Interleaves`, `interleaves_takeLeading` — lists that go through several runs at once, each of
  them from its front;
* `mergeRuns_eq_mergeSort` — merging runs that are in order is a stable sort, also if they hold
  an item several times;
* `readable_of_takeRanked`, `exists_of_takeRanked_error` — what was read if a merge answers, and
  what was not if it faults;
* `mergeRanked_interleaves` — the merge of sources.

**Numbered items.**  Which of two equal items came first cannot be told from the items.  So they
are numbered through all runs, and the merge of the numbered runs is a stable sort in which the
numbers break the ties (`numbered`).
-/

namespace ExtentQuery.Sorting

variable {α : Type} {cmp : Comparison α}

/-! ### Interleavings -/

/-- Whether a list takes all items out of some runs, one after the other and each from the front
of a run. -/
inductive Interleaves : List (List α) → List α → Prop where
  | done {runs : List (List α)} (ended : ∀ run ∈ runs, run = []) : Interleaves runs []
  | take {runs : List (List α)} {i : Nat} {item : α} {tail rest : List α}
      (at_i : runs[i]? = some (item :: tail)) (later : Interleaves (runs.set i tail) rest) :
      Interleaves runs (item :: rest)

theorem modify_tail_eq_set {runs : List (List α)} {i : Nat} {item : α} {tail : List α}
    (at_i : runs[i]? = some (item :: tail)) : runs.modify i List.tail = runs.set i tail := by
  rw [List.modify_eq_set, at_i]
  rfl

/-- An interleaving lists every item as often as the runs do. -/
theorem Interleaves.perm {runs : List (List α)} {merged : List α}
    (interleaves : Interleaves runs merged) : merged.Perm runs.flatten := by
  induction interleaves with
  | done ended => rw [List.flatten_eq_nil_iff.mpr ended]
  | take at_i later ih =>
    have taken := perm_flatten_modify_tail at_i
    rw [modify_tail_eq_set at_i] at taken
    exact (ih.cons _).trans taken.symm

/-- An interleaving lists the items of each run in their order. -/
theorem Interleaves.sublist {runs : List (List α)} {merged run : List α}
    (interleaves : Interleaves runs merged) (mem : run ∈ runs) : run.Sublist merged := by
  induction interleaves generalizing run with
  | done ended => rw [ended run mem]
  | @take runs i item tail rest at_i later ih =>
    obtain ⟨j, at_j⟩ := List.mem_iff_getElem?.mp mem
    have inside : i < runs.length := (List.getElem?_eq_some_iff.mp at_i).1
    by_cases same : i = j
    · obtain rfl : item :: tail = run := Option.some.inj (at_i.symm.trans (same ▸ at_j))
      exact (ih (List.mem_set inside tail)).cons_cons item
    · have left : (runs.set i tail)[j]? = some run := by rw [List.getElem?_set_ne same, at_j]
      exact (ih (List.mem_of_getElem? left)).cons item

/-- Taking the leading head again and again interleaves the runs, whichever heads lead. -/
theorem interleaves_takeLeading (cmp : Comparison α) {count : Nat} {runs : List (List α)}
    (enough : runs.flatten.length ≤ count) : Interleaves runs (takeLeading cmp count runs) := by
  induction count generalizing runs with
  | zero =>
    have empty := List.eq_nil_of_length_eq_zero (Nat.le_zero.mp enough)
    exact .done (List.flatten_eq_nil_iff.mp empty)
  | succ count ih =>
    unfold takeLeading
    cases found : leading cmp (runs.map List.head?) with
    | none =>
      refine .done fun run mem => List.head?_eq_none_iff.mp ?_
      exact (leadingFrom_eq_none found).2 _ (List.mem_map_of_mem mem)
    | some entry =>
      obtain ⟨i, head⟩ := entry
      obtain ⟨tail, at_i⟩ := exists_of_leading found
      have taken := (perm_flatten_modify_tail at_i).length_eq
      rw [List.length_cons] at taken
      refine .take at_i ?_
      rw [← modify_tail_eq_set at_i]
      exact ih (by omega)

theorem interleaves_mergeRuns (cmp : Comparison α) (runs : List (List α)) :
    Interleaves runs (mergeRuns cmp runs) :=
  interleaves_takeLeading cmp (Nat.le_refl _)

/-! ### The stable order -/

/-- The items of some runs with their numbers, counted through all runs. -/
def numbered : (first : Nat) → List (List α) → List (List (α × Nat))
  | _, [] => []
  | first, run :: runs => run.zipIdx first :: numbered (first + run.length) runs

theorem flatten_numbered (first : Nat) (runs : List (List α)) :
    (numbered first runs).flatten = runs.flatten.zipIdx first := by
  induction runs generalizing first with
  | nil => rfl
  | cons run runs ih => rw [numbered, List.flatten_cons, List.flatten_cons, ih, List.zipIdx_append]

theorem map_numbered (first : Nat) (runs : List (List α)) :
    (numbered first runs).map (List.map Prod.fst) = runs := by
  induction runs generalizing first with
  | nil => rfl
  | cons run runs ih => rw [numbered, List.map_cons, ih, List.zipIdx_map_fst]

/-- Whether an item has the lower number of two. -/
def NumberedBefore (x y : α × Nat) : Prop := x.2 < y.2

instance : IsTrans (α × Nat) NumberedBefore :=
  ⟨fun _ _ _ => Nat.lt_trans⟩

theorem pairwise_zipIdx (first : Nat) (xs : List α) :
    (xs.zipIdx first).Pairwise NumberedBefore := by
  have numbers : ((xs.zipIdx first).map Prod.snd).Pairwise (· < ·) := by
    rw [List.zipIdx_map_snd]
    exact List.pairwise_lt_range'
  exact List.pairwise_map (f := Prod.snd).mp numbers

/-- The order of a comparison, as a test. -/
def notAfter (cmp : Comparison α) (x y : α) : Bool := (cmp x y).isLE

theorem zipIdxLE_of_leads [Std.TransCmp cmp] {x y : α × Nat}
    (leads : Leads (through Prod.fst cmp) NumberedBefore x y) :
    List.zipIdxLE (notAfter cmp) x y = true := by
  have back : cmp y.1 x.1 = (cmp x.1 y.1).swap := Std.OrientedCmp.eq_swap
  rcases leads with smaller | ⟨equal, before⟩
  · have compared : cmp x.1 y.1 = .lt := smaller
    simp [List.zipIdxLE, notAfter, back, compared]
  · have compared : cmp x.1 y.1 = .eq := equal
    simp [List.zipIdxLE, notAfter, back, compared, Nat.le_of_lt before]

theorem leads_of_isLE {before : α → α → Prop} {x y : α} (notGreater : (cmp x y).isLE = true)
    (came : before x y) : Leads cmp before x y := by
  cases compared : cmp x y with
  | lt => exact .inl compared
  | eq => exact .inr ⟨compared, came⟩
  | gt =>
    rw [compared] at notGreater
    cases notGreater

/-- Numbered items that are not after one another have the same number. -/
theorem eq_of_zipIdxLE {xs : List α} {x y : α × Nat} (mem : x ∈ xs.zipIdx) (mem' : y ∈ xs.zipIdx)
    (le : List.zipIdxLE (notAfter cmp) x y = true) (ge : List.zipIdxLE (notAfter cmp) y x = true) :
    x = y := by
  have at_x := List.mem_zipIdx_iff_getElem?.mp mem
  have at_y := List.mem_zipIdx_iff_getElem?.mp mem'
  have number : x.2 = y.2 := by
    unfold List.zipIdxLE at le ge
    split at le
    · split at le
      · rename_i first second
        simp only [first, second, if_true, decide_eq_true_eq] at le ge
        exact Nat.le_antisymm le ge
      · rename_i first second
        simp [second] at ge
    · cases le
  rw [number] at at_x
  exact Prod.ext (Option.some.inj (at_x.symm.trans at_y)) number

/-- **Merging is a stable sort.**  Runs that are in order are merged into what a stable sort makes
of the runs one after the other. -/
theorem mergeRuns_eq_mergeSort [Std.TransCmp cmp] {runs : List (List α)}
    (ordered : ∀ run ∈ runs, Ordered cmp run) :
    mergeRuns cmp runs = runs.flatten.mergeSort (notAfter cmp) := by
  have transitive : Std.TransCmp (through Prod.fst cmp : Comparison (α × Nat)) :=
    { eq_swap := fun {x y} => (Std.OrientedCmp.eq_swap : cmp x.1 y.1 = (cmp y.1 x.1).swap)
      isLE_trans := fun {x y z} first second =>
        (Std.TransCmp.isLE_trans first second : (cmp x.1 z.1).isLE = true) }
  have trans : ∀ a b c, notAfter cmp a b = true → notAfter cmp b c = true →
      notAfter cmp a c = true :=
    fun _ _ _ => Std.TransCmp.isLE_trans
  have total : ∀ a b, (notAfter cmp a b || notAfter cmp b a) = true := by
    intro a b
    have back : cmp b a = (cmp a b).swap := Std.OrientedCmp.eq_swap
    rw [notAfter, notAfter, back]
    cases cmp a b <;> rfl
  have apart : (numbered 0 runs).flatten.Pairwise NumberedBefore := by
    rw [flatten_numbered]
    exact pairwise_zipIdx 0 _
  obtain ⟨within, ahead⟩ := List.pairwise_flatten.mp apart
  have leading : ∀ run ∈ numbered 0 runs,
      run.Pairwise (Leads (through Prod.fst cmp) NumberedBefore) := by
    intro run mem
    have here : run.map Prod.fst ∈ runs := by
      have mapped := List.mem_map_of_mem (f := List.map Prod.fst) mem
      rwa [map_numbered] at mapped
    exact ((List.pairwise_map.mp (ordered _ here)).and (within run mem)).imp fun both =>
      leads_of_isLE both.1 both.2
  have sorted := sorts_mergeRuns leading ahead
  rw [flatten_numbered] at sorted
  have same : mergeRuns (through Prod.fst cmp) (numbered 0 runs)
      = runs.flatten.zipIdx.mergeSort (List.zipIdxLE (notAfter cmp)) := by
    refine List.Perm.eq_of_pairwise (fun x y mem mem' => ?_) (sorted.ordered.imp zipIdxLE_of_leads)
      (List.pairwise_mergeSort (List.zipIdxLE_trans trans) (List.zipIdxLE_total total) _)
      (sorted.perm.trans (List.mergeSort_perm _ _).symm)
    exact eq_of_zipIdxLE (sorted.perm.mem_iff.mp mem) (List.mem_mergeSort.mp mem')
  calc mergeRuns cmp runs
    _ = mergeRuns cmp ((numbered 0 runs).map (List.map Prod.fst)) := by rw [map_numbered]
    _ = (mergeRuns (through Prod.fst cmp) (numbered 0 runs)).map Prod.fst := mergeRuns_map _ _ _
    _ = (runs.flatten.zipIdx.mergeSort (List.zipIdxLE (notAfter cmp))).map Prod.fst := by rw [same]
    _ = runs.flatten.mergeSort (notAfter cmp) := List.mergeSort_zipIdx

/-! ### Sources -/

section Sources

variable {reader : KeyReader} {ascending : Bool} {fault : Fault}

/-- What is still to come of a source whose head has been read. -/
def Source.items (source : Source) : List (Except Fault EntityId) :=
  (source.head.map fun head => .ok head.id).toList ++ source.rest

/-- What is known of a source whose head has been read: nothing is lost of it, it is at its end if
it has no head, and otherwise the key of its head could be read. -/
structure Source.Begins (reader : KeyReader) (items : List (Except Fault EntityId))
    (source : Source) : Prop where
  items_eq : source.items = items
  ended : source.head = none → source.rest = []
  readable : ∀ item ∈ items.head?, ∃ key, item >>= reader = .ok key

theorem Source.begins_of_read {items : List (Except Fault EntityId)} {source : Source}
    (found : Source.read reader items = .ok source) : source.Begins reader items := by
  match items with
  | [] =>
    cases found
    exact ⟨rfl, fun _ => rfl, fun _ none => absurd none (Option.not_mem_none _)⟩
  | .error _ :: _ => cases found
  | .ok id :: rest =>
    obtain ⟨key, read, found⟩ := exists_of_bind_eq_ok found
    cases found
    refine ⟨rfl, nofun, fun item first => ⟨key, ?_⟩⟩
    obtain rfl : .ok id = item := Option.some.inj first
    exact read

/-- Each item of a source was read as its head, or is still to come. -/
theorem Source.Begins.readable_or_mem {items : List (Except Fault EntityId)} {source : Source}
    (begins : source.Begins reader items) {item : Except Fault EntityId} (mem : item ∈ items) :
    (∃ key, item >>= reader = .ok key) ∨ item ∈ source.rest := by
  have listed := begins.items_eq ▸ mem
  rw [Source.items] at listed
  cases head : source.head with
  | none =>
    rw [head, begins.ended head] at listed
    cases listed
  | some ranked =>
    have first : .ok ranked.id ∈ items.head? := by
      rw [← begins.items_eq, Source.items, head]
      rfl
    rw [head] at listed
    rcases List.mem_cons.mp listed with rfl | later
    · exact .inl (begins.readable _ first)
    · exact .inr later

theorem Source.exists_of_read_error {items : List (Except Fault EntityId)}
    (faulted : Source.read reader items = .error fault) :
    ∃ item ∈ items, item >>= reader = .error fault := by
  match items with
  | [] => cases faulted
  | .error other :: rest => exact ⟨.error other, List.mem_cons_self, by cases faulted; rfl⟩
  | .ok id :: rest =>
    refine ⟨.ok id, List.mem_cons_self, ?_⟩
    cases read : reader id with
    | error other =>
      rw [Source.read, read] at faulted
      cases faulted
      exact read
    | ok key =>
      rw [Source.read, read] at faulted
      cases faulted

/-- The head that leads is the head of a source. -/
theorem exists_source_of_leading {sources : List Source} {i : Nat} {head : Ranked}
    (found : leading (Ranked.compare ascending) (sources.map Source.head) = some (i, head)) :
    ∃ rest, sources[i]? = some ⟨some head, rest⟩ := by
  have at_i := getElem?_of_leading found
  rw [List.getElem?_map] at at_i
  obtain ⟨⟨_, rest⟩, at_i, rfl⟩ := Option.map_eq_some_iff.mp at_i
  exact ⟨rest, at_i⟩

/-- A source from which the head is taken loses just that. -/
theorem map_items_set {sources : List Source} {i : Nat} {head : Ranked}
    {rest : List (Except Fault EntityId)} {next : Source}
    (at_i : sources[i]? = some ⟨some head, rest⟩) (begins : next.Begins reader rest) :
    (sources.set i next).map Source.items = (sources.map Source.items).modify i List.tail := by
  have here : (sources.map Source.items)[i]? = some (.ok head.id :: rest) := by
    rw [List.getElem?_map, at_i]
    rfl
  rw [modify_tail_eq_set here, List.map_set, begins.items_eq]

/-- If heads can be taken until every source is at its end, then everything in the sources can be
read. -/
theorem readable_of_takeRanked {count : Nat} {sources : List Source} {taken : List EntityId}
    (ended : ∀ source ∈ sources, source.head = none → source.rest = [])
    (enough : (sources.map Source.items).flatten.length ≤ count)
    (found : takeRanked reader ascending count sources = .ok taken) :
    ∀ source ∈ sources, ∀ item ∈ source.rest, ∃ key, item >>= reader = .ok key := by
  induction count generalizing sources taken with
  | zero =>
    intro source mem item inside
    have empty := List.eq_nil_of_length_eq_zero (Nat.le_zero.mp enough)
    have none := List.flatten_eq_nil_iff.mp empty _ (List.mem_map_of_mem mem)
    rw [(List.append_eq_nil_iff.mp none).2] at inside
    cases inside
  | succ count ih =>
    rw [takeRanked] at found
    cases first : leading (Ranked.compare ascending) (sources.map Source.head) with
    | none =>
      intro source mem item inside
      have headless := (leadingFrom_eq_none first).2 _ (List.mem_map_of_mem mem)
      rw [ended source mem headless] at inside
      cases inside
    | some entry =>
      obtain ⟨i, head⟩ := entry
      obtain ⟨rest, at_i⟩ := exists_source_of_leading first
      simp only [first, at_i, Option.map_some, Option.getD_some] at found
      obtain ⟨next, read, found⟩ := exists_of_bind_eq_ok found
      obtain ⟨others, later, -⟩ := exists_of_bind_eq_ok found
      have begins := Source.begins_of_read read
      have shorter := map_items_set at_i begins
      have here : (sources.map Source.items)[i]? = some (.ok head.id :: rest) := by
        rw [List.getElem?_map, at_i]
        rfl
      have taken := (perm_flatten_modify_tail here).length_eq
      rw [List.length_cons, ← shorter] at taken
      have readable := ih (fun source mem => by
        rcases List.mem_or_eq_of_mem_set mem with mem | rfl
        · exact ended source mem
        · exact begins.ended) (by omega) later
      intro source mem item inside
      obtain ⟨j, at_j⟩ := List.mem_iff_getElem?.mp mem
      by_cases same : i = j
      · -- the source that lost its head: its next head was read, and the others are left
        subst same
        obtain rfl := Option.some.inj (at_i.symm.trans at_j)
        have inside' : i < sources.length := (List.getElem?_eq_some_iff.mp at_i).1
        exact (begins.readable_or_mem inside).elim id
          (readable next (List.mem_set inside' next) item)
      · have left : (sources.set i next)[j]? = some source := by
          rw [List.getElem?_set_ne same, at_j]
        exact readable source (List.mem_of_getElem? left) item inside

/-- If heads cannot be taken any longer, something in the sources cannot be read. -/
theorem exists_of_takeRanked_error {count : Nat} {sources : List Source}
    (faulted : takeRanked reader ascending count sources = .error fault) :
    ∃ source ∈ sources, ∃ item ∈ source.rest, item >>= reader = .error fault := by
  induction count generalizing sources with
  | zero => cases faulted
  | succ count ih =>
    rw [takeRanked] at faulted
    cases first : leading (Ranked.compare ascending) (sources.map Source.head) with
    | none =>
      rw [first] at faulted
      cases faulted
    | some entry =>
      obtain ⟨i, head⟩ := entry
      obtain ⟨rest, at_i⟩ := exists_source_of_leading first
      have mem := List.mem_of_getElem? at_i
      simp only [first, at_i, Option.map_some, Option.getD_some] at faulted
      cases read : Source.read reader rest with
      | error other =>
        rw [read] at faulted
        cases faulted
        exact ⟨_, mem, Source.exists_of_read_error read⟩
      | ok next =>
        cases later : takeRanked reader ascending count (sources.set i next) with
        | ok others =>
          simp only [read, later, bind, Except.bind] at faulted
          cases faulted
        | error other =>
          simp only [read, later, bind, Except.bind] at faulted
          cases faulted
          obtain ⟨source, mem', item, inside, unread⟩ := ih later
          rcases List.mem_or_eq_of_mem_set mem' with mem' | rfl
          · exact ⟨source, mem', item, inside, unread⟩
          · refine ⟨_, mem, item, ?_, unread⟩
            rw [← (Source.begins_of_read read).items_eq]
            exact List.mem_append_right _ inside

/-- Reading the heads of some sources loses nothing. -/
theorem begins_of_mapM {sources : List (List (Except Fault EntityId))} {heads : List Source}
    (read : sources.mapM (Source.read reader) = .ok heads) :
    heads.map Source.items = sources ∧ ∀ head ∈ heads, head.Begins reader head.items := by
  induction sources generalizing heads with
  | nil =>
    cases read
    exact ⟨rfl, fun _ none => absurd none List.not_mem_nil⟩
  | cons items sources ih =>
    rw [List.mapM_cons] at read
    obtain ⟨head, first, read⟩ := exists_of_bind_eq_ok read
    obtain ⟨rest, others, read⟩ := exists_of_bind_eq_ok read
    cases read
    have begins := Source.begins_of_read first
    obtain ⟨same, later⟩ := ih others
    refine ⟨by rw [List.map_cons, begins.items_eq, same], fun other mem => ?_⟩
    rcases List.mem_cons.mp mem with rfl | mem
    · rw [begins.items_eq]
      exact begins
    · exact later other mem

/-- If a merge answers, everything in its sources can be read. -/
theorem readable_of_mergeRanked {sources : List (List (Except Fault EntityId))}
    {merged : List EntityId} (found : mergeRanked reader ascending sources = .ok merged) :
    ∀ source ∈ sources, ∀ item ∈ source, ∃ key, item >>= reader = .ok key := by
  obtain ⟨heads, read, found⟩ := exists_of_bind_eq_ok found
  obtain ⟨rfl, begins⟩ := begins_of_mapM read
  intro source mem item inside
  obtain ⟨head, there, rfl⟩ := List.mem_map.mp mem
  have readable := readable_of_takeRanked (fun head mem => (begins head mem).ended)
    (Nat.le_refl _) found
  exact ((begins head there).readable_or_mem inside).elim id (readable head there item)

/-- If a merge faults, something in its sources cannot be read, for this very reason. -/
theorem exists_of_mergeRanked_error {sources : List (List (Except Fault EntityId))}
    (faulted : mergeRanked reader ascending sources = .error fault) :
    ∃ source ∈ sources, ∃ item ∈ source, item >>= reader = .error fault := by
  cases read : sources.mapM (Source.read reader) with
  | error other =>
    rw [mergeRanked, read] at faulted
    cases faulted
    obtain ⟨source, mem, unread⟩ := exists_of_mapM_error read
    exact ⟨source, mem, Source.exists_of_read_error unread⟩
  | ok heads =>
    rw [mergeRanked, read] at faulted
    obtain ⟨head, mem, item, inside, unread⟩ := exists_of_takeRanked_error faulted
    obtain ⟨rfl, -⟩ := begins_of_mapM read
    exact ⟨head.items, List.mem_map_of_mem mem, item, List.mem_append_right _ inside, unread⟩

/-! ### Merging sources -/

/-- The key that is read of an entity, and none where the reader faults. -/
def readKey (reader : KeyReader) (id : EntityId) : Option Value :=
  (reader id).toOption.join

theorem readKey_eq {id : EntityId} {key : Option Value} (read : reader id = .ok key) :
    readKey reader id = key := by
  rw [readKey, read]
  rfl

theorem reads_readKey (reader : KeyReader) : Reads reader (readKey reader) :=
  fun _ _ read => (readKey_eq read).symm

/-- A merge of entities lists each of them as often as its sources do. -/
theorem perm_of_mergeRanked {runs : List (List EntityId)} {merged : List EntityId}
    (found : mergeRanked reader ascending (runs.map (·.map .ok)) = .ok merged) :
    merged.Perm runs.flatten := by
  rw [eq_mergeRuns_of_mergeRanked (reads_readKey reader) found]
  exact mergeRuns_perm _ _

/-- A source in which everything can be read is a run of entities whose keys can be read. -/
theorem exists_run_of_readable {source : List (Except Fault EntityId)}
    (readable : ∀ item ∈ source, ∃ key, item >>= reader = .ok key) :
    ∃ run, run.map .ok = source ∧ Readable reader (readKey reader) run := by
  induction source with
  | nil => exact ⟨[], rfl, nofun⟩
  | cons item source ih =>
    obtain ⟨run, rfl, read⟩ := ih fun other mem => readable other (.tail _ mem)
    obtain ⟨key, first⟩ := readable item List.mem_cons_self
    cases item with
    | error other => cases first
    | ok id =>
      have here : reader id = .ok key := first
      refine ⟨id :: run, rfl, fun other mem => ?_⟩
      rcases List.mem_cons.mp mem with rfl | mem
      · rw [readKey_eq here, here]
      · exact read other mem

theorem exists_runs_of_readable {sources : List (List (Except Fault EntityId))}
    (readable : ∀ source ∈ sources, ∀ item ∈ source, ∃ key, item >>= reader = .ok key) :
    ∃ runs : List (List EntityId), runs.map (List.map .ok) = sources ∧
      ∀ run ∈ runs, Readable reader (readKey reader) run := by
  induction sources with
  | nil => exact ⟨[], rfl, nofun⟩
  | cons source sources ih =>
    obtain ⟨runs, rfl, read⟩ := ih fun other mem => readable other (.tail _ mem)
    obtain ⟨run, rfl, first⟩ := exists_run_of_readable (readable source List.mem_cons_self)
    refine ⟨run :: runs, rfl, fun other mem => ?_⟩
    rcases List.mem_cons.mp mem with rfl | mem
    · exact first
    · exact read other mem

/-- The keys of some entities: none for any other entity, whatever a reader reads of it. -/
def keyWithin (reader : KeyReader) (ids : List EntityId) (id : EntityId) : Option Value :=
  if id ∈ ids then readKey reader id else none

/-- Merging runs whose keys are of one kind, and which are in the order of these keys, is a stable
sort. -/
theorem mergeRuns_readKey {runs : List (List EntityId)} {kind : Value.Kind}
    (readable : ∀ run ∈ runs, Readable reader (readKey reader) run)
    (ofKind : ∀ run ∈ runs, ∀ id ∈ run, ∀ v, reader id = .ok (some v) → v.kind = kind)
    (ordered : ∀ run ∈ runs, Ordered (byKey ascending (readKey reader)) run) :
    mergeRuns (byKey ascending (readKey reader)) runs
      = runs.flatten.mergeSort (notAfter (byKey ascending (readKey reader))) := by
  -- keys of other entities may be of any kind, so they are left out
  let key := keyWithin reader runs.flatten
  have same : ∀ id ∈ runs.flatten, key id = readKey reader id := fun id mem => if_pos mem
  have within : ∀ {run}, run ∈ runs → ∀ {id}, id ∈ run → id ∈ runs.flatten := fun mem _ inside =>
    List.mem_flatten.mpr ⟨_, mem, inside⟩
  have agrees : ∀ x ∈ runs.flatten, ∀ y ∈ runs.flatten,
      byKey ascending key x y = byKey ascending (readKey reader) x y := by
    intro x mem y mem'
    rw [byKey, byKey, same x mem, same y mem']
  have kinds : Value.OfKind kind key := by
    intro id v here
    obtain ⟨mem, here⟩ := Option.ite_none_right_eq_some.mp here
    obtain ⟨run, there, inside⟩ := List.mem_flatten.mp mem
    refine ofKind run there id inside v ?_
    rw [readable run there id inside, here]
  have transitive : Std.TransCmp (byKey ascending key) := transCmp_byKey kinds.unmixed ascending
  have readable' : ∀ run ∈ runs, Readable reader key run := fun run mem id inside => by
    rw [same id (within mem inside)]
    exact readable run mem id inside
  have ordered' : ∀ run ∈ runs, Ordered (byKey ascending key) run := fun run mem =>
    (ordered run mem).imp_of_mem fun {x y} inside inside' notGreater => by
      rw [agrees x (within mem inside) y (within mem inside')]
      exact notGreater
  have merged : mergeRuns (byKey ascending (readKey reader)) runs
      = mergeRuns (byKey ascending key) runs :=
    Except.ok.inj ((mergeRanked_eq readable).symm.trans (mergeRanked_eq readable'))
  have sorts := List.map_mergeSort (r := notAfter (byKey ascending key))
    (s := notAfter (byKey ascending (readKey reader))) (f := id) (l := runs.flatten)
    fun x mem y mem' => congrArg Ordering.isLE (agrees x mem y mem')
  rw [List.map_id, List.map_id] at sorts
  rw [merged, mergeRuns_eq_mergeSort ordered', sorts]

/-- **Merging sources by a key.**  If an item of a source is a fault or the key of one cannot be
read, the merge faults for such a reason.  Otherwise it answers an interleaving of the sources,
in which nothing is lost and nothing is repeated.  If moreover the keys that are read are absent
or of one kind, and every source is in the order of its keys in the direction of the merge, then
it answers what a stable sort makes of the sources one after the other. -/
theorem mergeRanked_interleaves (reader : KeyReader) (ascending : Bool)
    (sources : List (List (Except Fault EntityId))) :
    ((∃ source ∈ sources, ∃ item ∈ source, ∃ fault, item >>= reader = .error fault) →
      ∃ fault, mergeRanked reader ascending sources = .error fault ∧
        ∃ source ∈ sources, ∃ item ∈ source, item >>= reader = .error fault) ∧
    ((∀ source ∈ sources, ∀ item ∈ source, ∃ key, item >>= reader = .ok key) →
      ∃ runs merged, runs.map (List.map .ok) = sources ∧
        mergeRanked reader ascending sources = .ok merged ∧
        Interleaves runs merged ∧ merged.Perm runs.flatten ∧ (∀ run ∈ runs, run.Sublist merged) ∧
        ((∃ kind, ∀ run ∈ runs, ∀ id ∈ run, ∀ v, reader id = .ok (some v) → v.kind = kind) →
          (∀ run ∈ runs, Ordered (byKey ascending (readKey reader)) run) →
          merged = runs.flatten.mergeSort (notAfter (byKey ascending (readKey reader))))) := by
  constructor
  · rintro ⟨source, mem, item, inside, fault, unread⟩
    cases found : mergeRanked reader ascending sources with
    | error fault => exact ⟨fault, rfl, exists_of_mergeRanked_error found⟩
    | ok merged =>
      obtain ⟨key, read⟩ := readable_of_mergeRanked found source mem item inside
      rw [unread] at read
      cases read
  · intro readable
    obtain ⟨runs, rfl, read⟩ := exists_runs_of_readable readable
    have interleaves := interleaves_mergeRuns (byKey ascending (readKey reader)) runs
    refine ⟨runs, _, rfl, mergeRanked_eq read, interleaves, interleaves.perm,
      fun run => interleaves.sublist, ?_⟩
    rintro ⟨kind, ofKind⟩ ordered
    exact mergeRuns_readKey read ofKind ordered

end Sources

/-- The last digit of the number of an entity. -/
def lastDigit : KeyReader := fun id => .ok (some (.int (Int64.ofNat (id.localId % 10))))

/-- Three sources, one of them without entities, in the order of their last digits. -/
def byLastDigit : List (List EntityId) := [[⟨1, 1⟩, ⟨1, 5⟩], [], [⟨2, 11⟩, ⟨2, 3⟩]]

/-- A tie between two sources goes to the earlier one, and a fault behind an entity ends the
merge. -/
theorem mergeRanked_interleaves_lastDigit :
    (∃ fault, mergeRanked lastDigit true [[.ok ⟨1, 1⟩], [.ok ⟨2, 11⟩, .error .notFound]]
      = .error fault) ∧
    (∀ run ∈ byLastDigit, Ordered (byKey true (readKey lastDigit)) run) ∧
    mergeRanked lastDigit true (byLastDigit.map (List.map .ok))
      = .ok [⟨1, 1⟩, ⟨2, 11⟩, ⟨2, 3⟩, ⟨1, 5⟩] ∧
    byLastDigit.flatten.mergeSort (notAfter (byKey true (readKey lastDigit)))
      = [⟨1, 1⟩, ⟨2, 11⟩, ⟨2, 3⟩, ⟨1, 5⟩] := by
  have ordered : ∀ run ∈ byLastDigit, Ordered (byKey true (readKey lastDigit)) run := by
    simp only [Ordered]
    decide
  have merged : mergeRanked lastDigit true (byLastDigit.map (List.map .ok))
      = .ok [⟨1, 1⟩, ⟨2, 11⟩, ⟨2, 3⟩, ⟨1, 5⟩] := by decide
  refine ⟨?_, ordered, merged, ?_⟩
  · obtain ⟨fault, faulted, -⟩ := (mergeRanked_interleaves lastDigit true
      [[.ok ⟨1, 1⟩], [.ok ⟨2, 11⟩, .error .notFound]]).1
        ⟨_, .tail _ (.head _), _, .tail _ (.head _), .notFound, rfl⟩
    exact ⟨fault, faulted⟩
  · have readable : ∀ source ∈ byLastDigit.map (List.map Except.ok), ∀ item ∈ source,
        ∃ key, item >>= lastDigit = .ok key := by
      intro source mem item inside
      obtain ⟨run, -, rfl⟩ := List.mem_map.mp mem
      obtain ⟨id, -, rfl⟩ := List.mem_map.mp inside
      exact ⟨_, rfl⟩
    obtain ⟨runs, answer, same, found, -, -, -, stable⟩ :=
      (mergeRanked_interleaves lastDigit true (byLastDigit.map (List.map .ok))).2 readable
    obtain rfl : runs = byLastDigit := by
      have injective : Function.Injective (List.map (Except.ok : EntityId → Except Fault EntityId)) :=
        List.map_injective_iff.mpr fun _ _ => Except.ok.inj
      exact List.map_injective_iff.mpr injective same
    obtain rfl := Except.ok.inj (merged.symm.trans found)
    refine (stable ⟨.int, ?_⟩ ordered).symm
    rintro run - id - v ⟨⟩
    rfl

end ExtentQuery.Sorting
