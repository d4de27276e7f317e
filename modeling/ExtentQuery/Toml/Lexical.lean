/-!
# The words of TOML

Readers for blanks, comments, keys and strings.  A reader takes characters from the front
of a text and answers what it read and the rest; `none` means that the text is not valid.

**Characters.**  A tab and every character from the space on is permitted in strings and
comments, except for the delete character; line breaks are permitted in strings with
three quotes.  Keys without quotes are made of ASCII letters and digits, hyphens and
underscores.

**Strings with three quotes** may end in up to two quotes of their own, and a line break
right after the opening quotes does not count.
-/

namespace ExtentQuery.Toml

/-- Reads from the front of a text. -/
abbrev Reader := StateT (List Char) Option

/-- The longest beginning of a text whose characters satisfy a condition. -/
def readWhile (ok : Char → Bool) : Reader (List Char) := fun text =>
  some (text.takeWhile ok, text.dropWhile ok)

/-- Reads one given character. -/
def readChar (c : Char) : Reader Unit
  | d :: rest => if c = d then some ((), rest) else none
  | [] => none

/-- Reads given characters. -/
def readExactly : List Char → Reader Unit
  | [] => pure ()
  | c :: cs => do
    readChar c
    readExactly cs

/-- The next character, which is left in the text. -/
def peekChar : Reader (Option Char) := fun text => some (text.head?, text)

/-- Whether a character is a blank. -/
def isBlank (c : Char) : Bool := c == ' ' || c == '\t'

/-- Reads blanks. -/
def readBlanks : Reader Unit := do
  let _ ← readWhile isBlank

/-- Whether a character may stand in a string or a comment. -/
def isPrintable (c : Char) : Bool := c == '\t' || (' ' ≤ c && c != '\x7f')

/-- Reads a comment, if there is one. -/
def readComment : Reader Unit := do
  if (← peekChar) == some '#' then
    let _ ← readWhile isPrintable

/-- Reads a line break. -/
def readNewline : Reader Unit
  | '\n' :: rest => some ((), rest)
  | '\r' :: '\n' :: rest => some ((), rest)
  | _ => none

/-- Reads the end of a line or of the text. -/
def readLineEnd : Reader Unit := do
  if (← peekChar).isSome then readNewline

/-- Reads what may follow on a line. -/
def readLineRest : Reader Unit := do
  readBlanks
  readComment
  readLineEnd

/-! ### Strings -/

/-- The value of a hexadecimal digit. -/
def hexDigit? (c : Char) : Option Nat :=
  if '0' ≤ c && c ≤ '9' then some (c.toNat - '0'.toNat)
  else if 'a' ≤ c && c ≤ 'f' then some (c.toNat - 'a'.toNat + 10)
  else if 'A' ≤ c && c ≤ 'F' then some (c.toNat - 'A'.toNat + 10)
  else none

/-- The character with a code point in hexadecimal digits. -/
def charOfHex? (digits : List Char) : Option Char := do
  let n ← digits.foldlM (fun n c => return 16 * n + (← hexDigit? c)) 0
  if n.isValidChar then some (Char.ofNat n) else none

/-- The character that a letter stands for after a backslash. -/
def escaped? : Char → Option Char
  | 'b' => some '\x08'
  | 't' => some '\t'
  | 'n' => some '\n'
  | 'f' => some '\x0c'
  | 'r' => some '\r'
  | '"' => some '"'
  | '\\' => some '\\'
  | _ => none

/-- Puts a character in front of what is read next. -/
def consRead (c : Char) (next : Option (List Char × List Char)) :
    Option (List Char × List Char) :=
  next.map fun (text, rest) => (c :: text, rest)

/-- Reads the rest of a string in double quotes. -/
def readBasic : Reader (List Char)
  | '"' :: rest => some ([], rest)
  | '\\' :: 'u' :: a :: b :: c :: d :: rest => do
    consRead (← charOfHex? [a, b, c, d]) (readBasic rest)
  | '\\' :: 'U' :: a :: b :: c :: d :: e :: f :: g :: h :: rest => do
    consRead (← charOfHex? [a, b, c, d, e, f, g, h]) (readBasic rest)
  | '\\' :: letter :: rest => do consRead (← escaped? letter) (readBasic rest)
  | c :: rest => if isPrintable c then consRead c (readBasic rest) else none
  | [] => none

/-- Where the reader of a string with three double quotes stands. -/
inductive Folding where
  /-- In the text. -/
  | no
  /-- Behind a backslash, before the line break that it hides. -/
  | pending
  /-- Behind a hidden line break, before the next character of the text. -/
  | yes
deriving DecidableEq

/-- Reads the rest of a string with three double quotes.  A backslash at the end of a line
hides the line break and all blanks and line breaks after it. -/
def readLongBasic : Folding → Reader (List Char)
  | .pending, c :: rest =>
    if isBlank c then readLongBasic .pending rest
    else if c = '\n' then readLongBasic .yes rest
    else
      match c, rest with
      | '\r', '\n' :: rest => readLongBasic .yes rest
      | _, _ => none
  | .pending, [] => none
  | _, '"' :: '"' :: '"' :: '"' :: '"' :: rest => some (['"', '"'], rest)
  | _, '"' :: '"' :: '"' :: '"' :: rest => some (['"'], rest)
  | _, '"' :: '"' :: '"' :: rest => some ([], rest)
  | _, '\\' :: 'u' :: a :: b :: c :: d :: rest => do
    consRead (← charOfHex? [a, b, c, d]) (readLongBasic .no rest)
  | _, '\\' :: 'U' :: a :: b :: c :: d :: e :: f :: g :: h :: rest => do
    consRead (← charOfHex? [a, b, c, d, e, f, g, h]) (readLongBasic .no rest)
  | _, '\\' :: c :: rest =>
    match escaped? c with
    | some c => consRead c (readLongBasic .no rest)
    | none => readLongBasic .pending (c :: rest)
  | folding, '\r' :: '\n' :: rest =>
    if folding = .yes then readLongBasic .yes rest else consRead '\n' (readLongBasic .no rest)
  | folding, c :: rest =>
    if folding = .yes ∧ (isBlank c ∨ c = '\n') then readLongBasic .yes rest
    else if isPrintable c || c == '\n' then consRead c (readLongBasic .no rest)
    else none
  | _, [] => none

/-- Reads the rest of a string in single quotes. -/
def readLiteral : Reader (List Char) := do
  let text ← readWhile fun c => isPrintable c && c != '\''
  readChar '\''
  return text

/-- Reads the rest of a string with three single quotes. -/
def readLongLiteral : Reader (List Char)
  | '\'' :: '\'' :: '\'' :: '\'' :: '\'' :: rest => some (['\'', '\''], rest)
  | '\'' :: '\'' :: '\'' :: '\'' :: rest => some (['\''], rest)
  | '\'' :: '\'' :: '\'' :: rest => some ([], rest)
  | '\r' :: '\n' :: rest => consRead '\n' (readLongLiteral rest)
  | c :: rest =>
    if isPrintable c || c == '\n' then consRead c (readLongLiteral rest) else none
  | [] => none

/-- Leaves out a line break at the front of a text. -/
def skipNewline : List Char → List Char
  | '\n' :: rest => rest
  | '\r' :: '\n' :: rest => rest
  | text => text

/-- Reads a string on one line. -/
def readShortString : Reader String
  | '"' :: rest => (readBasic rest).map fun (text, rest) => (String.ofList text, rest)
  | '\'' :: rest => (readLiteral rest).map fun (text, rest) => (String.ofList text, rest)
  | _ => none

/-- Reads a string. -/
def readString : Reader String
  | '"' :: '"' :: '"' :: rest =>
    (readLongBasic .no (skipNewline rest)).map fun (text, rest) => (String.ofList text, rest)
  | '\'' :: '\'' :: '\'' :: rest =>
    (readLongLiteral (skipNewline rest)).map fun (text, rest) => (String.ofList text, rest)
  | text => readShortString text

/-! ### Keys -/

/-- Whether a character may stand in a key without quotes. -/
def isBare (c : Char) : Bool :=
  c.isAlphanum || c == '_' || c == '-'

/-- Reads one part of a key. -/
def readKeyPart : Reader String := do
  match ← peekChar with
  | some '"' => readShortString
  | some '\'' => readShortString
  | _ =>
    let word ← readWhile isBare
    if word.isEmpty then failure else return String.ofList word

/-- How many parts a key may have, at most. -/
def maxKeyParts : Nat := 79

/-- Reads the parts of a key, at most `count` of them. -/
def readKeyParts : (count : Nat) → Reader (List String)
  | 0 => failure
  | count + 1 => do
    readBlanks
    let part ← readKeyPart
    readBlanks
    if (← peekChar) == some '.' then
      readChar '.'
      return part :: (← readKeyParts count)
    else return [part]

/-- Reads a key. -/
def readKey : Reader (List String) := readKeyParts maxKeyParts

end ExtentQuery.Toml
