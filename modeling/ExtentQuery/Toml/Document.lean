import ExtentQuery.Toml.Draft
import ExtentQuery.Toml.Number

/-!
# Reading TOML documents

`Toml.parse` reads a document.  Of a document that is not valid it says no more than that;
what is wrong with it and where is not recorded.

**Nesting.**  Arrays and tables in braces may be nested, but not more than `maxNesting`
deep.  An array may be spread over several lines, with comments, and its last item may be
followed by a comma; a table in braces stands on one line, and its last pair may not.
-/

namespace ExtentQuery.Toml

/-- How deep arrays and tables in braces may be nested. -/
def maxNesting : Nat := 79

/-- Reads blanks, line breaks and comments, at most `count` of them. -/
def readGaps : (count : Nat) → Reader Unit
  | 0 => pure ()
  | count + 1 => do
    readBlanks
    match ← peekChar with
    | some '#' => do
      readComment
      readNewline
      readGaps count
    | some '\n' => do readNewline; readGaps count
    | some '\r' => do readNewline; readGaps count
    | _ => pure ()

/-- Reads blanks, line breaks and comments. -/
def readGap : Reader Unit := fun text => readGaps (text.length + 1) text

/-- Reads the rest of an array, at most `count` items. -/
def readItems (item : Reader Node) : (count : Nat) → Reader (List Node)
  | 0 => failure
  | count + 1 => do
    readGap
    if (← peekChar) == some ']' then
      readChar ']'
      return []
    else
      let first ← item
      readGap
      if (← peekChar) == some ',' then
        readChar ','
        return first :: (← readItems item count)
      else
        readChar ']'
        return [first]

/-- Reads a key and its value in braces. -/
def readPair (item : Reader Node) : Reader (List String × Node) := do
  let key ← readKey
  readChar '='
  readBlanks
  let value ← item
  readBlanks
  return (key, value)

/-- Reads the rest of a table in braces, at most `count` pairs of which there is at least
one. -/
def readPairs (item : Reader Node) : (count : Nat) → Reader (List (List String × Node))
  | 0 => failure
  | count + 1 => do
    let first ← readPair item
    if (← peekChar) == some ',' then
      readChar ','
      return first :: (← readPairs item count)
    else
      readChar '\x7d'
      return [first]

/-- Reads a table in braces behind the opening one. -/
def readInlineTable (item : Reader Node) : Reader Node := do
  readBlanks
  if (← peekChar) == some '\x7d' then
    readChar '\x7d'
    return .table .inline []
  else
    let pairs ← fun text => readPairs item (text.length + 1) text
    inlineTable pairs

/-- Reads a value that contains no other. -/
def readScalar : Reader Node := do
  match ← peekChar with
  | some '"' => return .string (← readString)
  | some '\'' => return .string (← readString)
  | some 't' => do readExactly "true".toList; return .bool true
  | some 'f' => do readExactly "false".toList; return .bool false
  | some _ => readDateTime <|> readNumber
  | none => failure

/-- Reads a value in which others may be nested `room` deep. -/
def readValue : (room : Nat) → Reader Node
  | 0 => readScalar
  | room + 1 => do
    match ← peekChar with
    | some '[' => do
      readChar '['
      return .array (← fun text => readItems (readValue room) (text.length + 1) text)
    | some '\x7b' => do
      readChar '\x7b'
      readInlineTable (readValue room)
    | _ => readScalar

/-- Reads a header behind its first bracket. -/
def readHeader : Reader Line := do
  if (← peekChar) == some '[' then
    readChar '['
    let path ← readKey
    readExactly [']', ']']
    return .element path
  else
    let path ← readKey
    readChar ']'
    return .table path

/-- Reads a line that is neither blank nor a comment. -/
def readContent : Reader Line := do
  if (← peekChar) == some '[' then
    readChar '['
    readHeader
  else
    let path ← readKey
    readChar '='
    readBlanks
    return .assignment path (← readValue maxNesting)

/-- Reads the lines of a document, at most `count` of them. -/
def readLines : (count : Nat) → Reader (List Line)
  | 0 => failure
  | count + 1 => do
    readBlanks
    match ← peekChar with
    | none => return []
    | some '#' => do readLineRest; readLines count
    | some '\n' => do readNewline; readLines count
    | some '\r' => do readNewline; readLines count
    | some _ => do
      let line ← readContent
      readLineRest
      return line :: (← readLines count)

/-- Leaves out the mark that may stand in front of a text. -/
def skipMark : List Char → List Char
  | '\ufeff' :: rest => rest
  | text => text

/-- The table that a document writes, if it is valid. -/
def parse (document : String) : Option Entries := do
  let text := skipMark document.toList
  let (lines, _) ← readLines (text.length + 1) text
  let draft ← lines.foldlM Draft.add .empty
  return draft.root

end ExtentQuery.Toml
