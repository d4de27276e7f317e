import ExtentQuery.Proofs.Caching.Codes
import ExtentQuery.Proofs.Rewriting.Interpretation

/-!
# What a canonical text stands for

The canonical text of a query can be read back up to the order of the operands of
intersections and unions (`Query.commuted_of_canonical`): the tag in front says what kind
of node it is, and every attribute and operand says itself where it ends, or is followed
by a comma or a closing parenthesis.

* `Query.legible` — the queries that this is about;
* `Query.Kind.tag`, `Query.body` — a canonical text in two parts;
* `Query.commuted_of_canonical` — two queries at the front of the same text are the same up
  to the order of operands;
* `Query.canonical_eq_iff_commuted` — and only such queries share their text.

**Custom leaves and placeholders are left out.**  The name of a custom leaf is up to its
author, who may choose the tag of another node.
-/

namespace ExtentQuery.Query

open Text

/-- Whether a query has no custom leaf and no placeholder, also not within decorated
queries. -/
def legible : Query → Bool
  | custom _ => false
  | slot _ => false
  | converter .. => false
  | root c => c.legible
  | compl c => c.legible
  | sort _ c => c.legible
  | linkedInto _ targets _ => targets.legible
  | inter l r => l.legible && r.legible
  | union l r => l.legible && r.legible
  | diff l r => l.legible && r.legible
  | concat l r => l.legible && r.legible
  | _ => true

/-- A query is legible if its leaves are. -/
theorem allLeaves_legible (q : Query) :
    (Interpretation.allLeaves legible true).of q = q.legible := by
  induction q with
  | root c ih | compl c ih | sort order c ih => exact ih
  | inter l r ihl ihr | union l r ihl ihr | diff l r ihl ihr | concat l r ihl ihr =>
    exact congrArg₂ and ihl ihr
  | _ => rfl

/-! ### Tags and bodies -/

/-- What is written in front of the parentheses of a node. -/
def Kind.tag : Kind → String
  | root => "root"
  | all => "all"
  | linksFrom => "links"
  | equals => "pe"
  | between => "pr"
  | startsWith => "psw"
  | hasProperty => "pnn"
  | linkedTo => "le"
  | hasLink => "lnn"
  | linkedInto => "led"
  | inter => "and"
  | union => "or"
  | diff => "minus"
  | concat => "concat"
  | compl => "not"
  | sort => "sort"
  | custom => "custom"
  | slot => "?"

/-- The target of a link, if one is asked for. -/
def canonicalTarget : Option EntityId → String
  | some target => target.text
  | none => "n"

/-- What is written between the parentheses of a node. -/
def body : Query → String
  | root c => c.canonical
  | all => ""
  | linksFrom source link => source.text ++ "," ++ counted link
  | equals property value => counted property ++ "," ++ canonicalOption value
  | between property low high =>
    counted property ++ "," ++ low.canonical ++ "," ++ high.canonical
  | startsWith property start => counted property ++ "," ++ counted start
  | hasProperty property => counted property
  | linkedTo link target => counted link ++ "," ++ canonicalTarget target
  | hasLink link => counted link
  | linkedInto link targets targetType =>
    counted link ++ "," ++ counted targetType ++ "," ++ targets.canonical
  | inter l r => canonicalPair l.canonical r.canonical
  | union l r => canonicalPair l.canonical r.canonical
  | diff l r => l.canonical ++ "," ++ r.canonical
  | concat l r => l.canonical ++ "," ++ r.canonical
  | compl c => c.canonical
  | sort order c => order.canonical ++ "," ++ c.canonical
  | custom leaf => leaf.attributes
  | slot number => toString number
  | converter number conversion => toString number ++ ":" ++ conversion.name

theorem canonical_eq {q : Query} (legible : q.legible = true) :
    q.canonical = q.kind.tag ++ ("(" ++ (q.body ++ ")")) := by
  apply String.toList_inj.mp
  cases q with
  | linkedTo link target =>
    cases target <;> simp [canonical, kind, Kind.tag, body, canonicalTarget]
  | custom | slot | converter => cases legible
  | _ => simp [canonical, kind, Kind.tag, body]

theorem Kind.tag_injective : Function.Injective Kind.tag := by
  intro k k' same
  cases k <;> cases k' <;> first | rfl | simp [tag] at same

theorem Kind.tag_open (k : Kind) : ∀ c ∈ k.tag.toList, (c != '(') = true := by
  cases k <;> simp [tag]

/-- Two queries at the front of the same text have the same kind, and their bodies are at
the front of the same text. -/
theorem kind_body_of_canonical {a b : Query} {s t : String} (left : a.legible = true)
    (right : b.legible = true) (same : a.canonical ++ s = b.canonical ++ t) :
    a.kind = b.kind ∧ a.body ++ (")" ++ s) = b.body ++ (")" ++ t) := by
  rw [canonical_eq left, canonical_eq right] at same
  simp only [String.append_assoc] at same
  have stop : ∀ {s : String}, ∀ c ∈ ("(" ++ s).toList.head?, (c != '(') = false := by
    simp
  obtain ⟨tags, bodies⟩ := eq_of_run (p := (· != '(')) a.kind.tag_open b.kind.tag_open stop stop
    same
  exact ⟨Kind.tag_injective tags, (String.append_right_inj _).mp bodies⟩

/-! ### Sort steps -/

theorem prefixFree_direction : PrefixFree SortStep.direction := by
  intro a b s t same
  cases a <;> cases b
  case false.false | true.true => exact ⟨rfl, (String.append_right_inj _).mp same⟩
  all_goals
    have heads := congrArg String.toList same
    simp [SortStep.direction] at heads

theorem alike_of_canonical {a b : SortStep} {s t : String} (endLeft : Ends s) (endRight : Ends t)
    (same : a.canonical ++ s = b.canonical ++ t) : a.Alike b ∧ s = t := by
  cases a <;> cases b
  case property.property =>
    simp only [SortStep.canonical, String.append_assoc, String.append_right_inj] at same
    obtain ⟨rfl, name⟩ := prefixFree_direction same
    obtain ⟨rfl, rest⟩ := prefixFree_counted ((String.append_right_inj _).mp name)
    exact ⟨rfl, rest⟩
  case linkedProperty.linkedProperty =>
    simp only [SortStep.canonical, String.append_assoc, String.append_right_inj] at same
    obtain ⟨rfl, type⟩ := prefixFree_direction same
    obtain ⟨rfl, property⟩ := prefixFree_counted ((String.append_right_inj _).mp type)
    obtain ⟨rfl, link⟩ := prefixFree_counted property
    obtain ⟨rfl, rest⟩ := prefixFree_counted link
    exact ⟨rfl, rest⟩
  case key.key =>
    simp only [SortStep.canonical, String.append_assoc, String.append_right_inj] at same
    obtain ⟨rfl, number⟩ := prefixFree_direction same
    obtain ⟨rfl, rest⟩ := separable_nat endLeft endRight ((String.append_right_inj _).mp number)
    exact ⟨⟨rfl, rfl⟩, rest⟩
  -- steps of two kinds differ in their first character
  all_goals
    have kinds := congrArg String.toList same
    simp [SortStep.canonical] at kinds

/-! ### Targets -/

/-- The text of an identity does not begin with a letter. -/
theorem text_ne_letter (id : EntityId) (s t : String) : id.text ++ s ≠ "n" ++ t := by
  intro same
  have letters := congrArg String.toList same
  simp only [EntityId.text, String.toList_append, List.append_assoc] at letters
  have digits : ∀ c ∈ (toString id.typeId).toList, c.isDigit = true := fun _ here =>
    isDigit_of_mem_repr here
  cases written : (toString id.typeId).toList with
  | nil => exact Nat.toDigits_ne_nil (Nat.toList_repr.symm.trans written)
  | cons c rest =>
    rw [written] at letters digits
    obtain rfl : c = 'n' := (List.cons.inj letters).1
    cases digits 'n' List.mem_cons_self

theorem separable_target : Separable canonicalTarget := by
  intro a b s t endLeft endRight same
  cases a <;> cases b
  case none.none => exact ⟨rfl, (String.append_right_inj _).mp same⟩
  case some.some =>
    exact (separable_entityId endLeft endRight same).imp_left (congrArg some)
  case some.none id => exact absurd same (text_ne_letter id s t)
  case none.some id => exact absurd same.symm (text_ne_letter id t s)

/-! ### Queries -/

/-- Whether a query that is read off the front of a text is the same up to the order of
operands. -/
def ReadsBack (a : Query) : Prop :=
  ∀ ⦃b : Query⦄ ⦃s t : String⦄, b.legible = true →
    a.canonical ++ s = b.canonical ++ t → a.Commuted b ∧ s = t

/-- Two operands that are written in their own order. -/
theorem ReadsBack.both {l r l' r' : Query} {s t : String} (readsLeft : l.ReadsBack)
    (readsRight : r.ReadsBack) (left : l'.legible = true) (right : r'.legible = true)
    (same : l.canonical ++ "," ++ r.canonical ++ s = l'.canonical ++ "," ++ r'.canonical ++ t) :
    l.Commuted l' ∧ r.Commuted r' ∧ s = t := by
  simp only [String.append_assoc] at same
  obtain ⟨commuted, same⟩ := readsLeft left same
  exact ⟨commuted, readsRight right ((String.append_right_inj _).mp same)⟩

theorem canonicalPair_eq_or (left right : String) :
    canonicalPair left right = left ++ "," ++ right
      ∨ canonicalPair left right = right ++ "," ++ left := by
  unfold canonicalPair
  split
  · exact .inr rfl
  · exact .inl rfl

/-- Two operands that are written in the order of their texts. -/
theorem ReadsBack.pair {l r l' r' : Query} {s t : String} (readsLeft : l.ReadsBack)
    (readsRight : r.ReadsBack) (left : l'.legible = true) (right : r'.legible = true)
    (same : canonicalPair l.canonical r.canonical ++ s
      = canonicalPair l'.canonical r'.canonical ++ t) :
    (l.Commuted l' ∧ r.Commuted r' ∨ l.Commuted r' ∧ r.Commuted l') ∧ s = t := by
  rcases canonicalPair_eq_or l.canonical r.canonical with order | order <;>
    rcases canonicalPair_eq_or l'.canonical r'.canonical with order' | order' <;>
    rw [order, order'] at same
  · obtain ⟨first, second, rest⟩ := readsLeft.both readsRight left right same
    exact ⟨.inl ⟨first, second⟩, rest⟩
  · obtain ⟨first, second, rest⟩ := readsLeft.both readsRight right left same
    exact ⟨.inr ⟨first, second⟩, rest⟩
  · obtain ⟨second, first, rest⟩ := readsRight.both readsLeft left right same
    exact ⟨.inr ⟨first, second⟩, rest⟩
  · obtain ⟨second, first, rest⟩ := readsRight.both readsLeft right left same
    exact ⟨.inl ⟨first, second⟩, rest⟩

/-- A query can be read off a text, if its body can be told from the bodies of queries of
its kind. -/
theorem ReadsBack.of_body {a : Query} (legible : a.legible = true)
    (reads : ∀ ⦃b : Query⦄ ⦃s t : String⦄, b.legible = true → a.kind = b.kind →
      a.body ++ (")" ++ s) = b.body ++ (")" ++ t) → a.Commuted b ∧ ")" ++ s = ")" ++ t) :
    a.ReadsBack := by
  intro b s t legible' same
  obtain ⟨kinds, bodies⟩ := kind_body_of_canonical legible legible' same
  obtain ⟨commuted, rest⟩ := reads legible' kinds bodies
  exact ⟨commuted, (String.append_right_inj _).mp rest⟩

/-! Each kind of query is read off a text part by part: first its kind, then its fields, one after
the other. -/

theorem readsBack_all : all.ReadsBack := by
  refine .of_body rfl fun b s t legible' kinds bodies => ?_
  cases b with
  | all => exact ⟨.refl _, (String.append_right_inj _).mp bodies⟩
  | _ => first | cases kinds | cases legible'

theorem readsBack_linksFrom (source : EntityId) (link : String) :
    (linksFrom source link).ReadsBack := by
  refine .of_body rfl fun b s t legible' kinds bodies => ?_
  cases b with
  | linksFrom source' link' =>
    simp only [body, String.append_assoc] at bodies
    obtain ⟨rfl, name⟩ := separable_entityId (ends_comma _) (ends_comma _) bodies
    obtain ⟨rfl, rest⟩ := prefixFree_counted ((String.append_right_inj _).mp name)
    exact ⟨.refl _, rest⟩
  | _ => first | cases kinds | cases legible'

theorem readsBack_equals (property : String) (value : Option Value) :
    (equals property value).ReadsBack := by
  refine .of_body rfl fun b s t legible' kinds bodies => ?_
  cases b with
  | equals property' value' =>
    simp only [body, String.append_assoc] at bodies
    obtain ⟨rfl, written⟩ := prefixFree_counted bodies
    obtain ⟨rfl, rest⟩ := separable_option (ends_close _) (ends_close _)
      ((String.append_right_inj _).mp written)
    exact ⟨.refl _, rest⟩
  | _ => first | cases kinds | cases legible'

theorem readsBack_between (property : String) (low high : Value) :
    (between property low high).ReadsBack := by
  refine .of_body rfl fun b s t legible' kinds bodies => ?_
  cases b with
  | between property' low' high' =>
    simp only [body, String.append_assoc] at bodies
    obtain ⟨rfl, lower⟩ := prefixFree_counted bodies
    obtain ⟨rfl, upper⟩ := separable_value (ends_comma _) (ends_comma _)
      ((String.append_right_inj _).mp lower)
    obtain ⟨rfl, rest⟩ := separable_value (ends_close _) (ends_close _)
      ((String.append_right_inj _).mp upper)
    exact ⟨.refl _, rest⟩
  | _ => first | cases kinds | cases legible'

theorem readsBack_startsWith (property start : String) :
    (startsWith property start).ReadsBack := by
  refine .of_body rfl fun b s t legible' kinds bodies => ?_
  cases b with
  | startsWith property' start' =>
    simp only [body, String.append_assoc] at bodies
    obtain ⟨rfl, text⟩ := prefixFree_counted bodies
    obtain ⟨rfl, rest⟩ := prefixFree_counted ((String.append_right_inj _).mp text)
    exact ⟨.refl _, rest⟩
  | _ => first | cases kinds | cases legible'

theorem readsBack_hasProperty (property : String) : (hasProperty property).ReadsBack := by
  refine .of_body rfl fun b s t legible' kinds bodies => ?_
  cases b with
  | hasProperty property' =>
    obtain ⟨rfl, rest⟩ := prefixFree_counted bodies
    exact ⟨.refl _, rest⟩
  | _ => first | cases kinds | cases legible'

theorem readsBack_linkedTo (link : String) (target : Option EntityId) :
    (linkedTo link target).ReadsBack := by
  refine .of_body rfl fun b s t legible' kinds bodies => ?_
  cases b with
  | linkedTo link' target' =>
    simp only [body, String.append_assoc] at bodies
    obtain ⟨rfl, written⟩ := prefixFree_counted bodies
    obtain ⟨rfl, rest⟩ := separable_target (ends_close _) (ends_close _)
      ((String.append_right_inj _).mp written)
    exact ⟨.refl _, rest⟩
  | _ => first | cases kinds | cases legible'

theorem readsBack_hasLink (link : String) : (hasLink link).ReadsBack := by
  refine .of_body rfl fun b s t legible' kinds bodies => ?_
  cases b with
  | hasLink link' =>
    obtain ⟨rfl, rest⟩ := prefixFree_counted bodies
    exact ⟨.refl _, rest⟩
  | _ => first | cases kinds | cases legible'

theorem readsBack_linkedInto (link targetType : String) {targets : Query}
    (legible : targets.legible = true) (reads : targets.ReadsBack) :
    (linkedInto link targets targetType).ReadsBack := by
  refine .of_body legible fun b s t legible' kinds bodies => ?_
  cases b with
  | linkedInto link' targets' targetType' =>
    simp only [body, String.append_assoc] at bodies
    obtain ⟨rfl, type⟩ := prefixFree_counted bodies
    obtain ⟨rfl, decorated⟩ := prefixFree_counted ((String.append_right_inj _).mp type)
    obtain ⟨commuted, rest⟩ := reads (b := targets') legible'
      ((String.append_right_inj _).mp decorated)
    exact ⟨.linkedInto link targetType commuted, rest⟩
  | _ => first | cases kinds | cases legible'

section Operands

variable {c l r : Query}

theorem readsBack_root (legible : c.legible = true) (reads : c.ReadsBack) :
    (root c).ReadsBack := by
  refine .of_body legible fun b s t legible' kinds bodies => ?_
  cases b with
  | root c' => exact (reads (b := c') legible' bodies).imp_left .root
  | _ => first | cases kinds | cases legible'

theorem readsBack_compl (legible : c.legible = true) (reads : c.ReadsBack) :
    (compl c).ReadsBack := by
  refine .of_body legible fun b s t legible' kinds bodies => ?_
  cases b with
  | compl c' => exact (reads (b := c') legible' bodies).imp_left .compl
  | _ => first | cases kinds | cases legible'

theorem readsBack_sort (order : SortStep) (legible : c.legible = true) (reads : c.ReadsBack) :
    (sort order c).ReadsBack := by
  refine .of_body legible fun b s t legible' kinds bodies => ?_
  cases b with
  | sort order' c' =>
    simp only [body, String.append_assoc] at bodies
    obtain ⟨alike, child⟩ := alike_of_canonical (ends_comma _) (ends_comma _) bodies
    obtain ⟨commuted, rest⟩ := reads (b := c') legible' ((String.append_right_inj _).mp child)
    exact ⟨.sort alike commuted, rest⟩
  | _ => first | cases kinds | cases legible'

theorem readsBack_inter (legible : (inter l r).legible = true) (readsLeft : l.ReadsBack)
    (readsRight : r.ReadsBack) : (inter l r).ReadsBack := by
  refine .of_body legible fun b s t legible' kinds bodies => ?_
  cases b with
  | inter l' r' =>
    obtain ⟨left, right⟩ := (Bool.and_eq_true _ _).mp legible'
    obtain ⟨kept | crossed, rest⟩ := readsLeft.pair readsRight left right bodies
    · exact ⟨.inter kept.1 kept.2, rest⟩
    · exact ⟨(Commuted.inter crossed.1 crossed.2).trans (.inter_comm r' l'), rest⟩
  | _ => first | cases kinds | cases legible'

theorem readsBack_union (legible : (union l r).legible = true) (readsLeft : l.ReadsBack)
    (readsRight : r.ReadsBack) : (union l r).ReadsBack := by
  refine .of_body legible fun b s t legible' kinds bodies => ?_
  cases b with
  | union l' r' =>
    obtain ⟨left, right⟩ := (Bool.and_eq_true _ _).mp legible'
    obtain ⟨kept | crossed, rest⟩ := readsLeft.pair readsRight left right bodies
    · exact ⟨.union kept.1 kept.2, rest⟩
    · exact ⟨(Commuted.union crossed.1 crossed.2).trans (.union_comm r' l'), rest⟩
  | _ => first | cases kinds | cases legible'

theorem readsBack_diff (legible : (diff l r).legible = true) (readsLeft : l.ReadsBack)
    (readsRight : r.ReadsBack) : (diff l r).ReadsBack := by
  refine .of_body legible fun b s t legible' kinds bodies => ?_
  cases b with
  | diff l' r' =>
    obtain ⟨left, right⟩ := (Bool.and_eq_true _ _).mp legible'
    obtain ⟨first, second, rest⟩ := readsLeft.both readsRight left right bodies
    exact ⟨.diff first second, rest⟩
  | _ => first | cases kinds | cases legible'

theorem readsBack_concat (legible : (concat l r).legible = true) (readsLeft : l.ReadsBack)
    (readsRight : r.ReadsBack) : (concat l r).ReadsBack := by
  refine .of_body legible fun b s t legible' kinds bodies => ?_
  cases b with
  | concat l' r' =>
    obtain ⟨left, right⟩ := (Bool.and_eq_true _ _).mp legible'
    obtain ⟨first, second, rest⟩ := readsLeft.both readsRight left right bodies
    exact ⟨.concat first second, rest⟩
  | _ => first | cases kinds | cases legible'

end Operands

/-- A query can be read off the front of a text, up to the order of operands. -/
theorem readsBack {a : Query} (legible : a.legible = true) : a.ReadsBack := by
  induction a with
  | all => exact readsBack_all
  | linksFrom source link => exact readsBack_linksFrom source link
  | equals property value => exact readsBack_equals property value
  | between property low high => exact readsBack_between property low high
  | startsWith property start => exact readsBack_startsWith property start
  | hasProperty property => exact readsBack_hasProperty property
  | linkedTo link target => exact readsBack_linkedTo link target
  | hasLink link => exact readsBack_hasLink link
  | linkedInto link targets targetType ih =>
    exact readsBack_linkedInto link targetType legible (ih legible)
  | root c ih => exact readsBack_root legible (ih legible)
  | compl c ih => exact readsBack_compl legible (ih legible)
  | sort order c ih => exact readsBack_sort order legible (ih legible)
  | inter l r ihl ihr =>
    obtain ⟨left, right⟩ := (Bool.and_eq_true _ _).mp legible
    exact readsBack_inter legible (ihl left) (ihr right)
  | union l r ihl ihr =>
    obtain ⟨left, right⟩ := (Bool.and_eq_true _ _).mp legible
    exact readsBack_union legible (ihl left) (ihr right)
  | diff l r ihl ihr =>
    obtain ⟨left, right⟩ := (Bool.and_eq_true _ _).mp legible
    exact readsBack_diff legible (ihl left) (ihr right)
  | concat l r ihl ihr =>
    obtain ⟨left, right⟩ := (Bool.and_eq_true _ _).mp legible
    exact readsBack_concat legible (ihl left) (ihr right)
  | custom | slot | converter => cases legible

/-- Legible queries with the same canonical text differ only in the order of the operands of
intersections and unions. -/
theorem commuted_of_canonical {a b : Query} (left : a.legible = true) (right : b.legible = true)
    (same : a.canonical = b.canonical) : a.Commuted b :=
  (readsBack left right (congrArg (· ++ "") same)).1

/-! ### Commuting queries share their text -/

/-- The canonical text of a sort step tells no more than `SortStep.Alike`. -/
theorem canonical_of_alike {a b : SortStep} (alike : a.Alike b) : a.canonical = b.canonical := by
  cases a <;> cases b
  case key.key =>
    obtain ⟨number, ascending⟩ := alike
    simp only [SortStep.canonical, number, ascending]
  all_goals exact congrArg SortStep.canonical alike

/-- The order of the operands of intersections and unions does not show in a canonical
text. -/
theorem canonical_of_commuted {a b : Query} (commuted : a.Commuted b) :
    a.canonical = b.canonical := by
  induction commuted with
  | refl => rfl
  | trans _ _ first second => exact first.trans second
  | inter_comm l r => exact canonical_inter_comm l r
  | union_comm l r => exact canonical_union_comm l r
  | root _ ih | compl _ ih | linkedInto _ _ _ ih => simp only [canonical, ih]
  | sort alike _ ih => simp only [canonical, canonical_of_alike alike, ih]
  | inter _ _ ihl ihr | union _ _ ihl ihr | diff _ _ ihl ihr | concat _ _ ihl ihr =>
    simp only [canonical, ihl, ihr]

/-- **A canonical text is a faithful key.**  Legible queries share it exactly if they are the
same up to the order of the operands of intersections and unions, at any depth. -/
theorem canonical_eq_iff_commuted {a b : Query} (left : a.legible = true)
    (right : b.legible = true) : a.canonical = b.canonical ↔ a.Commuted b :=
  ⟨commuted_of_canonical left right, canonical_of_commuted⟩

/-- Operands change places below a sort by a supplied key and within a decorated query, and
the names hold the very marks that a text is made of. -/
theorem canonical_eq_iff_commuted_decorated :
    let named := hasProperty "2:a),and("
    let twin := startsWith "p" ","
    let plain := linkedInto "l,1" (union named (compl twin)) "t)"
    let swapped := linkedInto "l,1" (union (compl twin) named) "t)"
    let order := SortStep.key 7 "size" .localId false
    let order' := SortStep.key 7 "length" (.property "n") false
    let a := sort order (inter plain all)
    let b := sort order' (inter all swapped)
    a.legible = true ∧ b.legible = true ∧ (a.canonical = b.canonical ↔ a.Commuted b)
      ∧ a.Commuted b :=
  ⟨rfl, rfl, canonical_eq_iff_commuted rfl rfl,
    .sort ⟨rfl, rfl⟩ (.trans (.inter_comm _ _)
      (.inter (.refl _) (.linkedInto "l,1" "t)" (.union_comm _ _))))⟩

end ExtentQuery.Query
