import ExtentQuery.Query.Canonical
import Mathlib

/-!
# Texts that can be read back

A canonical text is put together from the texts of numbers, names and values.  It stands
for one query only if each part can be read off the front of what follows.  There are two
ways in which a part can end:

* `PrefixFree` — the part says itself where it ends, whatever follows;
* `Separable` — the part ends where a comma or a closing parenthesis follows.

**Where the second one is needed.**  Numbers are written in digits and do not say where they
end.  In a canonical text they are always followed by a comma or by a closing parenthesis,
neither of which is part of a number.
-/

namespace ExtentQuery.Text

variable {α β : Type}

/-- Whether an item can be read off the front of any text. -/
def PrefixFree (write : α → String) : Prop :=
  ∀ ⦃a b : α⦄ ⦃s t : String⦄, write a ++ s = write b ++ t → a = b ∧ s = t

/-- Whether a character ends a number: a comma or a closing parenthesis. -/
def isEnd (c : Char) : Bool :=
  c == ',' || c == ')'

/-- Whether a text goes on with the end of a number. -/
def Ends (s : String) : Prop :=
  ∀ c ∈ s.toList.head?, isEnd c = true

/-- Whether an item can be read off the front of a text that goes on with an end. -/
def Separable (write : α → String) : Prop :=
  ∀ ⦃a b : α⦄ ⦃s t : String⦄, Ends s → Ends t → write a ++ s = write b ++ t → a = b ∧ s = t

theorem ends_comma (s : String) : Ends ("," ++ s) := by
  simp [Ends, isEnd]

theorem ends_close (s : String) : Ends (")" ++ s) := by
  simp [Ends, isEnd]

theorem PrefixFree.separable {write : α → String} (free : PrefixFree write) :
    Separable write :=
  fun _ _ _ _ _ _ same => free same

/-! ### Runs of characters -/

/-- A run of characters of one sort ends where the first other character follows. -/
theorem takeWhile_append {p : Char → Bool} {a s : List Char} (all : ∀ c ∈ a, p c = true)
    (stop : ∀ c ∈ s.head?, p c = false) : (a ++ s).takeWhile p = a := by
  rw [List.takeWhile_append_of_pos all]
  cases s with
  | nil => rw [List.takeWhile_nil, List.append_nil]
  | cons c s =>
    have other : ¬ p c = true := Bool.eq_false_iff.mp (stop c rfl)
    rw [List.takeWhile_cons_of_neg other, List.append_nil]

/-- Two texts that begin with runs of characters of one sort begin with the same run. -/
theorem eq_of_run {p : Char → Bool} {a b s t : String} (left : ∀ c ∈ a.toList, p c = true)
    (right : ∀ c ∈ b.toList, p c = true) (stopLeft : ∀ c ∈ s.toList.head?, p c = false)
    (stopRight : ∀ c ∈ t.toList.head?, p c = false) (same : a ++ s = b ++ t) :
    a = b ∧ s = t := by
  have lists : a.toList ++ s.toList = b.toList ++ t.toList := by
    rw [← String.toList_append, same, String.toList_append]
  have runs : a.toList = b.toList := by
    rw [← takeWhile_append left stopLeft, lists, takeWhile_append right stopRight]
  rw [runs, List.append_cancel_left_eq] at lists
  exact ⟨String.toList_inj.mp runs, String.toList_inj.mp lists⟩

/-- What is written without an end can be read off the front of a text that goes on with
one. -/
theorem separable_of_injective {write : α → String}
    (endless : ∀ a, ∀ c ∈ (write a).toList, isEnd c = false)
    (injective : Function.Injective write) : Separable write := by
  intro a b s t endLeft endRight same
  have stop : ∀ {s : String}, Ends s → ∀ c ∈ s.toList.head?, (!isEnd c) = false :=
    fun ends c here => by rw [ends c here]; rfl
  obtain ⟨written, rest⟩ := eq_of_run (p := fun c => !isEnd c)
    (fun c here => by rw [endless a c here]; rfl) (fun c here => by rw [endless b c here]; rfl)
    (stop endLeft) (stop endRight) same
  exact ⟨injective written, rest⟩

/-! ### Numbers -/

theorem isDigit_of_mem_repr {n : Nat} {c : Char} (mem : c ∈ n.repr.toList) :
    c.isDigit = true := by
  rw [Nat.toList_repr] at mem
  exact Nat.isDigit_of_mem_toDigits (by decide) (by decide) mem

theorem isEnd_of_isDigit {c : Char} (digit : c.isDigit = true) : isEnd c = false := by
  refine Bool.eq_false_iff.mpr fun isEnd => ?_
  rcases (Bool.or_eq_true _ _).mp isEnd with comma | close
  · rw [beq_iff_eq.mp comma] at digit
    cases digit
  · rw [beq_iff_eq.mp close] at digit
    cases digit

theorem separable_nat : Separable (toString : Nat → String) :=
  separable_of_injective (fun _ _ here => isEnd_of_isDigit (isDigit_of_mem_repr here))
    fun _ _ => Nat.repr_injective

theorem separable_int : Separable (toString : Int → String) := by
  refine separable_of_injective (fun n c here => ?_) fun _ _ => Int.repr_injective
  cases n with
  | ofNat n => exact isEnd_of_isDigit (isDigit_of_mem_repr here)
  | negSucc n =>
    rcases List.mem_append.mp (String.toList_append ▸ here) with sign | digit
    · obtain rfl : c = '-' := List.mem_singleton.mp sign
      rfl
    · exact isEnd_of_isDigit (isDigit_of_mem_repr digit)

/-- A number that another character than a digit follows. -/
theorem eq_of_repr_append {m n : Nat} {s t : String}
    (stopLeft : ∀ c ∈ s.toList.head?, c.isDigit = false)
    (stopRight : ∀ c ∈ t.toList.head?, c.isDigit = false)
    (same : toString m ++ s = toString n ++ t) : m = n ∧ s = t := by
  obtain ⟨digits, rest⟩ := eq_of_run (p := Char.isDigit)
    (fun _ here => isDigit_of_mem_repr here) (fun _ here => isDigit_of_mem_repr here) stopLeft
    stopRight same
  exact ⟨Nat.repr_injective digits, rest⟩

/-! ### Hexadecimal numbers -/

theorem digitChar_injective {m n : Nat} (left : m < 16) (right : n < 16)
    (same : m.digitChar = n.digitChar) : m = n := by
  have all : ∀ m < 16, ∀ n < 16, m.digitChar = n.digitChar → m = n := by decide
  exact all m left n right same

theorem isEnd_digitChar {n : Nat} (digit : n < 16) : isEnd n.digitChar = false := by
  have all : ∀ n < 16, isEnd n.digitChar = false := by decide
  exact all n digit

theorem isEnd_of_mem_toDigits {n : Nat} {c : Char} (mem : c ∈ Nat.toDigits 16 n) :
    isEnd c = false := by
  induction n using Nat.strongRecOn with
  | ind n ih =>
    rw [Nat.toDigits_eq_if (by decide)] at mem
    split at mem
    case isTrue small =>
      obtain rfl := List.mem_singleton.mp mem
      exact isEnd_digitChar small
    case isFalse large =>
      rcases List.mem_append.mp mem with front | last
      · exact ih (n / 16) (Nat.div_lt_self (by omega) (by decide)) front
      · obtain rfl := List.mem_singleton.mp last
        exact isEnd_digitChar (Nat.mod_lt _ (by decide))

theorem toDigits_injective {m n : Nat} (same : Nat.toDigits 16 m = Nat.toDigits 16 n) :
    m = n := by
  induction m using Nat.strongRecOn generalizing n with
  | ind m ih =>
    rw [Nat.toDigits_eq_if (n := m) (by decide), Nat.toDigits_eq_if (n := n) (by decide)] at same
    split at same <;> split at same
    case isTrue.isTrue smallM smallN =>
      exact digitChar_injective smallM smallN (List.singleton_inj.mp same)
    case isFalse.isFalse largeM _ =>
      obtain ⟨front, last⟩ := List.append_inj' same rfl
      have quotients := ih (m / 16) (Nat.div_lt_self (by omega) (by decide)) front
      have remainders := digitChar_injective (Nat.mod_lt m (by decide)) (Nat.mod_lt n (by decide))
        (List.singleton_inj.mp last)
      omega
    -- one digit is not the end of several
    case isTrue.isFalse =>
      have front := (List.append_eq_singleton_iff.mp same.symm).resolve_right (by simp)
      exact absurd front.1 Nat.toDigits_ne_nil
    case isFalse.isTrue =>
      have front := (List.append_eq_singleton_iff.mp same).resolve_right (by simp)
      exact absurd front.1 Nat.toDigits_ne_nil

/-! ### Counted texts -/

/-- Two texts of the same length at the front of the same text. -/
theorem eq_of_utf8ByteSize {a b s t : String} (size : a.utf8ByteSize = b.utf8ByteSize)
    (same : a ++ s = b ++ t) : a = b ∧ s = t := by
  rw [← String.toByteArray_inj, String.toByteArray_append, String.toByteArray_append,
    ByteArray.append_eq_append_iff_of_size_eq_left size] at same
  exact same.imp String.toByteArray_inj.mp String.toByteArray_inj.mp

/-- A text that is written after its own length can be read off the front of any text. -/
theorem prefixFree_counted : PrefixFree counted := by
  intro a b s t same
  simp only [counted, String.append_assoc] at same
  have colon : ∀ {s : String}, ∀ c ∈ (":" ++ s).toList.head?, c.isDigit = false := by
    simp
  obtain ⟨size, rest⟩ := eq_of_repr_append colon colon same
  exact eq_of_utf8ByteSize size ((String.append_right_inj _).mp rest)

/-! ### Parts of canonical texts -/

theorem separable_entityId : Separable EntityId.text := by
  rintro ⟨type, number⟩ ⟨type', number'⟩ s t endLeft endRight same
  simp only [EntityId.text, String.append_assoc] at same
  have hyphen : ∀ {s : String}, ∀ c ∈ ("-" ++ s).toList.head?, c.isDigit = false := by
    simp
  obtain ⟨rfl, numbers⟩ := eq_of_repr_append hyphen hyphen same
  obtain ⟨rfl, rest⟩ := separable_nat endLeft endRight ((String.append_right_inj _).mp numbers)
  exact ⟨rfl, rest⟩

theorem separable_bool : Separable (toString : Bool → String) := by
  have differ : "true" ≠ "false" := by decide
  refine separable_of_injective (fun b => ?_) fun a b same => ?_
  · cases b with
    | false =>
      show ∀ c ∈ "false".toList, isEnd c = false
      simp [isEnd]
    | true =>
      show ∀ c ∈ "true".toList, isEnd c = false
      simp [isEnd]
  · cases a <;> cases b
    case true.false => exact absurd same differ
    case false.true => exact absurd same.symm differ
    all_goals rfl

theorem separable_float :
    Separable fun x : Double => String.ofList (Nat.toDigits 16 x.bits.toNat) := by
  refine separable_of_injective (fun x c here => ?_) ?_
  · rw [String.toList_ofList] at here
    exact isEnd_of_mem_toDigits here
  · rintro ⟨bits⟩ ⟨bits'⟩ same
    have digits := toDigits_injective (String.ofList_injective same)
    exact congrArg Double.mk (UInt64.toNat_inj.mp digits)

/-- A part in front of which something constant is written. -/
theorem Separable.labelled {write : α → String} (separable : Separable write) (label : String) :
    Separable fun a => label ++ write a := by
  intro a b s t endLeft endRight same
  simp only [String.append_assoc, String.append_right_inj] at same
  exact separable endLeft endRight same

theorem separable_value : Separable Value.canonical := by
  intro a b s t endLeft endRight same
  cases a <;> cases b
  case bool.bool =>
    exact (separable_bool.labelled "b:" endLeft endRight same).imp_left (congrArg Value.bool)
  case int.int =>
    obtain ⟨n, rest⟩ := separable_int.labelled "i:" endLeft endRight same
    exact ⟨congrArg Value.int (Int64.toInt_inj.mp n), rest⟩
  case float.float =>
    exact (separable_float.labelled "f:" endLeft endRight same).imp_left (congrArg Value.float)
  case text.text =>
    exact (prefixFree_counted.separable.labelled "s" endLeft endRight same).imp_left
      (congrArg Value.text)
  case instant.instant =>
    exact (separable_int.labelled "d:" endLeft endRight same).imp_left (congrArg Value.instant)
  -- values of two kinds differ in their first character
  all_goals
    have kinds := congrArg String.toList same
    simp [Value.canonical] at kinds

theorem separable_option : Separable Query.canonicalOption := by
  intro a b s t endLeft endRight same
  cases a <;> cases b
  case none.none => exact ⟨rfl, (String.append_right_inj _).mp same⟩
  case some.some =>
    exact (separable_value endLeft endRight same).imp_left (congrArg some)
  -- no value is written with an `n` in front
  case none.some value =>
    have kinds := congrArg String.toList same
    cases value <;> simp [Query.canonicalOption, Value.canonical] at kinds
  case some.none value =>
    have kinds := congrArg String.toList same
    cases value <;> simp [Query.canonicalOption, Value.canonical] at kinds

end ExtentQuery.Text
