import ExtentQuery.Proofs.Sorting.SmallSort
import ExtentQuery.Sorting.Runs

/-!
# Merging any number of runs

A merge of ordered runs is in order, and it holds all of their items.

* `LeadsFrom`, `leadingFrom_spec` — the leading head is one of the heads, and it is related to
  all others;
* `takeLeading_spec` — taking the leading head again and again;
* `sorts_mergeRuns` — the merge of runs each of which is ahead of the later ones is a stable
  sort of the runs one after the other.
-/

namespace ExtentQuery.Sorting

variable {α : Type} {cmp : Comparison α} {R before : α → α → Prop}

/-! ### The leading head -/

/-- Whether the comparisons decide about the items of two runs, or about their heads. -/
def DecidesAll (cmp : Comparison α) (R : α → α → Prop) (xs ys : List α) : Prop :=
  ∀ x ∈ xs, ∀ y ∈ ys, Decides cmp R x y

theorem leadingFrom_eq_none {heads : List (Option α)} {best : Option (Nat × α)} {i : Nat}
    (noHead : leadingFrom cmp best i heads = none) :
    best = none ∧ ∀ head ∈ heads, head = none := by
  induction heads generalizing best i with
  | nil => exact ⟨noHead, fun _ mem => absurd mem List.not_mem_nil⟩
  | cons head heads ih =>
    cases head with
    | none =>
      obtain ⟨noBest, rest⟩ := ih noHead
      refine ⟨noBest, fun other mem => ?_⟩
      rcases List.mem_cons.mp mem with rfl | mem
      · rfl
      · exact rest other mem
    | some h =>
      cases best with
      | none => cases (ih noHead).1
      | some b =>
        rw [leadingFrom] at noHead
        split at noHead
        · cases (ih noHead).1
        · cases (ih noHead).1

/-- What is asked of the leading head of a list, if the search for it begins with a best
head so far: it is that one or one of the list, and it is related to all others. -/
structure LeadsFrom (R : α → α → Prop) (best : Option (Nat × α)) (i : Nat)
    (heads : List (Option α)) (k : Nat) (head : α) : Prop where
  among : best = some (k, head) ∨ ∃ n, k = i + n ∧ heads[n]? = some (some head)
  leadsBest : ∀ b ∈ best, b = (k, head) ∨ R head b.2
  leads : ∀ n h, heads[n]? = some (some h) → k = i + n ∨ R head h

namespace LeadsFrom

variable {best : Option (Nat × α)} {heads : List (Option α)} {i k : Nat} {head : α}

/-- What is known of later heads, seen from one position before. -/
theorem among_later {first : Option α} (rest : LeadsFrom R best (i + 1) heads k head) :
    best = some (k, head) ∨ ∃ n, k = i + n ∧ (first :: heads)[n]? = some (some head) := by
  refine rest.among.imp_right ?_
  rintro ⟨n, position, at_n⟩
  exact ⟨n + 1, by omega, at_n⟩

theorem leads_cons {first : Option α} (rest : LeadsFrom R best (i + 1) heads k head)
    (leadsFirst : ∀ h, first = some h → k = i ∨ R head h) :
    ∀ n h, (first :: heads)[n]? = some (some h) → k = i + n ∨ R head h := by
  intro n h at_n
  cases n with
  | zero => exact leadsFirst h (Option.some.inj at_n)
  | succ n => exact (rest.leads n h at_n).imp_left (by omega)

theorem skip (rest : LeadsFrom R best (i + 1) heads k head) :
    LeadsFrom R best i (none :: heads) k head :=
  ⟨rest.among_later, rest.leadsBest, rest.leads_cons fun _ => nofun⟩

/-- A head that takes the place of the best one so far, if there was one. -/
theorem replace [IsTrans α R] {h : α} (rest : LeadsFrom R (some (i, h)) (i + 1) heads k head)
    (better : ∀ b ∈ best, R h b.2) : LeadsFrom R best i (some h :: heads) k head := by
  have leadsHere := rest.leadsBest (i, h) rfl
  refine ⟨.inr ?_, fun b mem => .inr ?_, rest.leads_cons ?_⟩
  · rcases rest.among_later with same | later
    · cases same
      exact ⟨0, rfl, rfl⟩
    · exact later
  · rcases leadsHere with same | leadsHere
    · cases same
      exact better b mem
    · exact IsTrans.trans _ _ _ leadsHere (better b mem)
  · rintro _ ⟨⟩
    exact leadsHere.imp_left fun same => (congrArg Prod.fst same).symm

/-- A head that is no better than the best one so far. -/
theorem keep [IsTrans α R] {b : Nat × α} {h : α}
    (rest : LeadsFrom R (some b) (i + 1) heads k head) (worse : R b.2 h) :
    LeadsFrom R (some b) i (some h :: heads) k head := by
  refine ⟨rest.among_later, rest.leadsBest, rest.leads_cons ?_⟩
  rintro _ ⟨⟩
  rcases rest.leadsBest b rfl with same | leadsBest
  · cases same
    exact .inr worse
  · exact .inr (IsTrans.trans _ _ _ leadsBest worse)

end LeadsFrom

/-- The head that leads is the best one so far or a later one, and all the others are related
to it. -/
theorem leadingFrom_spec [IsTrans α R] {heads : List (Option α)} {best : Option (Nat × α)}
    {i k : Nat} {head : α}
    (decides : heads.Pairwise fun p q => ∀ x ∈ p, ∀ y ∈ q, Decides cmp R x y)
    (decidesBest : ∀ b ∈ best, ∀ p ∈ heads, ∀ y ∈ p, Decides cmp R b.2 y)
    (found : leadingFrom cmp best i heads = some (k, head)) :
    LeadsFrom R best i heads k head := by
  induction heads generalizing best i with
  | nil =>
    refine ⟨.inl found, fun b mem => .inl ?_, fun n h at_n => by simp at at_n⟩
    exact Option.some.inj (mem.symm.trans found)
  | cons first heads ih =>
    obtain ⟨here, rest⟩ := List.pairwise_cons.mp decides
    have kept : ∀ b ∈ best, ∀ p ∈ heads, ∀ y ∈ p, Decides cmp R b.2 y :=
      fun b mem p mem' => decidesBest b mem p (.tail _ mem')
    cases first with
    | none => exact (ih rest kept found).skip
    | some h =>
      have replaced : ∀ b ∈ some (i, h), ∀ p ∈ heads, ∀ y ∈ p, Decides cmp R b.2 y := by
        rintro _ ⟨⟩ p mem
        exact here p mem h rfl
      cases best with
      | none =>
        exact (ih rest replaced found).replace fun b none => absurd none (Option.not_mem_none b)
      | some b =>
        have decided := decidesBest b rfl (some h) List.mem_cons_self h rfl
        rw [leadingFrom] at found
        split at found
        case isTrue smaller =>
          refine (ih rest replaced found).replace ?_
          rintro _ ⟨⟩
          exact decided.smaller smaller
        case isFalse notSmaller => exact (ih rest kept found).keep (decided.notSmaller notSmaller)

/-! ### Taking heads -/

theorem perm_flatten_modify_tail {runs : List (List α)} {i : Nat} {head : α} {tail : List α}
    (at_i : runs[i]? = some (head :: tail)) :
    runs.flatten.Perm (head :: (runs.modify i List.tail).flatten) := by
  induction runs generalizing i with
  | nil => simp at at_i
  | cons run runs ih =>
    cases i with
    | zero =>
      obtain rfl : run = head :: tail := Option.some.inj at_i
      exact .refl _
    | succ i =>
      rw [List.modify_succ_cons, List.flatten_cons, List.flatten_cons]
      exact ((ih at_i).append_left run).trans List.perm_middle

theorem mem_modify_tail {runs : List (List α)} {i : Nat} {run : List α}
    (mem : run ∈ runs.modify i List.tail) : ∃ whole ∈ runs, run <:+ whole := by
  obtain ⟨n, at_n⟩ := List.mem_iff_getElem?.mp mem
  rw [List.getElem?_modify, Option.map_eq_map] at at_n
  obtain ⟨whole, there, rfl⟩ := Option.map_eq_some_iff.mp at_n
  refine ⟨whole, List.mem_of_getElem? there, ?_⟩
  split
  · exact List.tail_suffix whole
  · exact List.suffix_rfl

theorem pairwise_modify_tail {S : List α → List α → Prop}
    (shrinks : ∀ {l l' r r'}, l' <:+ l → r' <:+ r → S l r → S l' r') {runs : List (List α)}
    (pairwise : runs.Pairwise S) (i : Nat) : (runs.modify i List.tail).Pairwise S := by
  induction runs generalizing i with
  | nil =>
    rw [List.modify_nil]
    exact .nil
  | cons run runs ih =>
    obtain ⟨first, rest⟩ := List.pairwise_cons.mp pairwise
    cases i with
    | zero =>
      exact List.pairwise_cons.mpr ⟨fun other mem =>
        shrinks (List.tail_suffix run) List.suffix_rfl (first other mem), rest⟩
    | succ i =>
      rw [List.modify_succ_cons]
      refine List.pairwise_cons.mpr ⟨fun other mem => ?_, ih rest i⟩
      obtain ⟨whole, mem, suffix⟩ := mem_modify_tail mem
      exact shrinks List.suffix_rfl suffix (first whole mem)

theorem leading_head {runs : List (List α)} {i : Nat} {head : α}
    (at_i : (runs.map List.head?)[i]? = some (some head)) :
    ∃ tail, runs[i]? = some (head :: tail) := by
  rw [List.getElem?_map] at at_i
  obtain ⟨run, at_i, first⟩ := Option.map_eq_some_iff.mp at_i
  obtain ⟨tail, rfl⟩ := List.head?_eq_some_iff.mp first
  exact ⟨tail, at_i⟩

/-- Whatever is left in ordered runs stands behind the head that has been taken, or behind
another head, which that one leads. -/
theorem head_leads [IsTrans α R] {runs : List (List α)} {i : Nat} {head : α} {tail : List α}
    (at_i : runs[i]? = some (head :: tail)) (ordered : ∀ run ∈ runs, run.Pairwise R)
    (leads : ∀ m h, (runs.map List.head?)[m]? = some (some h) → i = m ∨ R head h) :
    ∀ z ∈ (runs.modify i List.tail).flatten, R head z := by
  intro z left
  obtain ⟨run, mem, inside⟩ := List.mem_flatten.mp left
  obtain ⟨m, at_m⟩ := List.mem_iff_getElem?.mp mem
  rw [List.getElem?_modify, Option.map_eq_map] at at_m
  obtain ⟨whole, there, rfl⟩ := Option.map_eq_some_iff.mp at_m
  split at inside
  case isTrue same =>
    subst same
    obtain rfl : whole = head :: tail := Option.some.inj (there.symm.trans at_i)
    exact (List.pairwise_cons.mp (ordered _ (List.mem_of_getElem? there))).1 z inside
  case isFalse other =>
    cases whole with
    | nil => cases inside
    | cons first rest =>
      have at_m' : (runs.map List.head?)[m]? = some (some first) := by
        rw [List.getElem?_map, there]
        rfl
      have leadsFirst : R head first := (leads m first at_m').resolve_left other
      rcases List.mem_cons.mp inside with rfl | later
      · exact leadsFirst
      · exact IsTrans.trans _ _ _ leadsFirst
          ((List.pairwise_cons.mp (ordered _ (List.mem_of_getElem? there))).1 z later)

/-- Taking the leading head again and again takes every item, and it takes them in order. -/
theorem takeLeading_spec [IsTrans α R] {count : Nat} {runs : List (List α)}
    (enough : runs.flatten.length ≤ count) (ordered : ∀ run ∈ runs, run.Pairwise R)
    (decides : runs.Pairwise (DecidesAll cmp R)) :
    (takeLeading cmp count runs).Perm runs.flatten ∧ (takeLeading cmp count runs).Pairwise R := by
  induction count generalizing runs with
  | zero =>
    rw [List.eq_nil_of_length_eq_zero (Nat.le_zero.mp enough)]
    exact ⟨.refl _, .nil⟩
  | succ count ih =>
    unfold takeLeading
    cases found : leading cmp (runs.map List.head?) with
    | none =>
      have empty : runs.flatten = [] := by
        refine List.flatten_eq_nil_iff.mpr fun run mem => ?_
        exact List.head?_eq_none_iff.mp
          ((leadingFrom_eq_none found).2 _ (List.mem_map_of_mem mem))
      rw [empty]
      exact ⟨.refl _, .nil⟩
    | some entry =>
      obtain ⟨i, head⟩ := entry
      have decidesHeads : (runs.map List.head?).Pairwise
          fun p q => ∀ x ∈ p, ∀ y ∈ q, Decides cmp R x y :=
        List.pairwise_map.mpr (decides.imp fun both x first y second =>
          both x (List.mem_of_mem_head? first) y (List.mem_of_mem_head? second))
      obtain ⟨among, -, leads⟩ := leadingFrom_spec decidesHeads
        (fun b none => absurd none (Option.not_mem_none b)) found
      obtain ⟨n, position, at_n⟩ := among.resolve_left nofun
      simp only [Nat.zero_add] at position leads
      subst position
      obtain ⟨tail, at_i⟩ := leading_head at_n
      have perm := perm_flatten_modify_tail at_i
      obtain ⟨perm', ordered'⟩ := ih
        (by have := perm.length_eq; rw [List.length_cons] at this; omega)
        (fun run mem => by
          obtain ⟨whole, mem, suffix⟩ := mem_modify_tail mem
          exact (ordered whole mem).sublist suffix.sublist)
        (pairwise_modify_tail (fun left right both x mem y mem' =>
          both x (left.subset mem) y (right.subset mem')) decides i)
      refine ⟨(perm'.cons head).trans perm.symm,
        List.pairwise_cons.mpr ⟨fun z taken => ?_, ordered'⟩⟩
      exact head_leads at_i ordered leads z (perm'.subset taken)

/-- Merging sorted runs, each of which is ahead of the later ones, is a stable sort of the
runs one after the other. -/
theorem sorts_mergeRuns [Std.TransCmp cmp] [IsTrans α before] {runs : List (List α)}
    (ordered : ∀ run ∈ runs, run.Pairwise (Leads cmp before))
    (ahead : runs.Pairwise (Ahead before)) :
    Sorts cmp before runs.flatten (mergeRuns cmp runs) := by
  have decides : runs.Pairwise (DecidesAll cmp (Leads cmp before)) :=
    ahead.imp fun ahead => ahead.decides
  obtain ⟨perm, ordered⟩ := takeLeading_spec (Nat.le_refl _) ordered decides
  exact ⟨perm, ordered⟩

end ExtentQuery.Sorting
