import ExtentQuery.Toml.Lexical
import ExtentQuery.Toml.Node

/-!
# Numbers and dates of TOML

Readers for integers, for numbers with a fraction or an exponent, and for dates and
times.

**Integers** have 64 bits and a sign; others are not valid, in whatever base they are
written.  Digits may be separated by single underscores.  A decimal integer other than
zero does not start with a zero.

**Numbers with a fraction** may not be as great as the positive infinity of the doubles,
unless they are written as the infinity itself.

**Dates** name days that exist.  A date may be followed by a time, and a time by an
offset of at most a day.
-/

namespace ExtentQuery.Toml

/-- The digits of a run behind its first one: each one may be preceded by an
underscore. -/
def runTail (ok : Char → Bool) : Reader (List Char)
  | '_' :: c :: rest => if ok c then consRead c (runTail ok rest) else none
  | '_' :: [] => none
  | c :: rest => if ok c then consRead c (runTail ok rest) else some ([], c :: rest)
  | [] => some ([], [])

/-- Reads a run of digits. -/
def readRun (ok : Char → Bool) : Reader (List Char)
  | c :: rest => if ok c then consRead c (runTail ok rest) else none
  | [] => none

/-- The number that digits write in a base. -/
def ofDigits (base : Nat) (digits : List Char) : Nat :=
  digits.foldl (fun n c => base * n + (hexDigit? c).getD 0) 0

/-- An integer, if it has 64 bits. -/
def integer? (n : Int) : Option Node :=
  if Int64.minValue.toInt ≤ n ∧ n ≤ Int64.maxValue.toInt then some (.integer n) else none

/-- Reads an integer in a base, behind the letter for the base. -/
def readInBase (base : Nat) (ok : Char → Bool) : Reader Node := do
  let digits ← readRun ok
  integer? (ofDigits base digits)

/-- Reads a sign, if there is one, and answers whether it is a minus. -/
def readSign : Reader Bool
  | '-' :: rest => some (true, rest)
  | '+' :: rest => some (false, rest)
  | text => some (false, text)

/-- Reads the digits of a decimal integer. -/
def readDecimal : Reader (List Char)
  | '0' :: rest => some (['0'], rest)
  | text => readRun Char.isDigit text

/-- Reads an exponent behind its letter. -/
def readExponent : Reader Int := do
  let minus ← readSign
  let digits ← readRun Char.isDigit
  let n : Int := ofDigits 10 digits
  return if minus then -n else n

/-- Whether `digits * 10 ^ exponent` is rounded to infinity when it is made a double: from
half a unit above the greatest double on, which is even in its last place when it is
left. -/
def overflows (digits : List Char) (exponent : Int) : Bool :=
  let n := ofDigits 10 digits
  let bound := 1 <<< 1024 - 1 <<< 970
  let magnitude := (digits.length : Int) + exponent
  if n = 0 ∨ magnitude < 300 then false
  else if (digits.dropWhile (· == '0')).length + exponent > 400 then true
  else if exponent < 0 then bound * Nat.pow 10 exponent.natAbs ≤ n
  else bound ≤ n * Nat.pow 10 exponent.natAbs

/-- A number with a fraction or an exponent, if it is not too great. -/
def float? (minus : Bool) (digits : List Char) (exponent : Int) : Option Node :=
  if !minus && overflows digits exponent then none
  else
    some (.float ((if minus then "-" else "") ++ String.ofList digits ++ "e"
      ++ toString exponent))

/-- Reads the exponent at the end of a number, if there is one. -/
def readOptionalExponent : Reader (Option Int) := do
  match ← peekChar with
  | some 'e' => do readChar 'e'; return some (← readExponent)
  | some 'E' => do readChar 'E'; return some (← readExponent)
  | _ => return none

/-- Reads a decimal number behind its sign. -/
def readUnsigned (minus : Bool) : Reader Node := do
  let digits ← readDecimal
  match ← peekChar with
  | some '.' =>
    readChar '.'
    let fraction ← readRun Char.isDigit
    let exponent := (← readOptionalExponent).getD 0
    float? minus (digits ++ fraction) (exponent - fraction.length)
  | _ =>
    match ← readOptionalExponent with
    | some exponent => float? minus digits exponent
    | none => integer? (if minus then -(ofDigits 10 digits : Int) else ofDigits 10 digits)

/-- Reads a number. -/
def readNumber : Reader Node
  | '0' :: 'x' :: rest => readInBase 16 (fun c => (hexDigit? c).isSome) rest
  | '0' :: 'o' :: rest => readInBase 8 (fun c => '0' ≤ c && c ≤ '7') rest
  | '0' :: 'b' :: rest => readInBase 2 (fun c => c == '0' || c == '1') rest
  | text => do
    let (minus, rest) ← readSign text
    match rest with
    | 'i' :: 'n' :: 'f' :: rest => some (.float "inf", rest)
    | 'n' :: 'a' :: 'n' :: rest => some (.float "nan", rest)
    | rest => readUnsigned minus rest

/-! ### Dates and times -/

/-- Reads exactly `count` decimal digits. -/
def readDigits (count : Nat) : Reader Nat := fun text =>
  let digits := text.take count
  if digits.length = count ∧ digits.all Char.isDigit then
    some (ofDigits 10 digits, text.drop count)
  else none

/-- Reads two digits that write a number in a range. -/
def readTwoDigits (low high : Nat) : Reader Nat := do
  let n ← readDigits 2
  if low ≤ n ∧ n ≤ high then return n else failure

/-- The number of days of a month. -/
def daysOfMonth (year month : Nat) : Nat :=
  if month = 2 then
    if year % 4 = 0 ∧ (year % 100 ≠ 0 ∨ year % 400 = 0) then 29 else 28
  else if [4, 6, 9, 11].contains month then 30
  else 31

/-- Reads a date. -/
def readDate : Reader Unit := do
  let year ← readDigits 4
  readChar '-'
  let month ← readTwoDigits 1 12
  readChar '-'
  let _ ← readTwoDigits 1 (daysOfMonth year month)

/-- Reads the fraction of a second, if there is one. -/
def readSecondFraction : Reader Unit := do
  if (← peekChar) == some '.' then
    readChar '.'
    let digits ← readWhile Char.isDigit
    if digits.isEmpty then failure

/-- Reads a time of day; a minute may have a leap second. -/
def readTime : Reader Unit := do
  let _ ← readTwoDigits 0 23
  readChar ':'
  let _ ← readTwoDigits 0 59
  readChar ':'
  let _ ← readTwoDigits 0 60
  readSecondFraction

/-- Reads the offset of a time, if there is one. -/
def readOffset : Reader Unit
  | 'Z' :: rest => some ((), rest)
  | 'z' :: rest => some ((), rest)
  | '+' :: rest => offset rest
  | '-' :: rest => offset rest
  | text => some ((), text)
where
  offset : Reader Unit := do
    let _ ← readTwoDigits 0 23
    readChar ':'
    let _ ← readTwoDigits 0 59

/-- Reads the time behind a date, if there is one. -/
def readTimeOfDate : Reader Unit := fun text =>
  match text with
  | c :: rest =>
    if c = 'T' ∨ c = 't' ∨ c = ' ' then
      match readTime rest with
      | some ((), rest) => readOffset rest
      | none => some ((), text)
    else some ((), text)
  | [] => some ((), [])

/-- Reads a date, a time, or a date with a time. -/
def readDateTime : Reader Node := fun text =>
  let read := (readDate >>= fun _ => readTimeOfDate) <|> readTime
  match read text with
  | some ((), rest) =>
    some (.dateTime (String.ofList (text.take (text.length - rest.length))), rest)
  | none => none

end ExtentQuery.Toml
