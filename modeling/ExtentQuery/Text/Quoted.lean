import ExtentQuery.Text.Unseen

/-!
# Quoted text

Text in double quotes for inspection: a quote and a backslash are preceded by a
backslash, line breaks and tabs are written as letters, and characters that are not seen
are written by their code points in hexadecimal.
-/

namespace ExtentQuery.Text

/-- A character inside quotes. -/
def quotedChar (c : Char) : List Char :=
  if c = '"' then ['\\', '"']
  else if c = '\\' then ['\\', '\\']
  else if c = '\n' then ['\\', 'n']
  else if c = '\r' then ['\\', 'r']
  else if c = '\t' then ['\\', 't']
  else if c = '\x00' then ['\\', '0']
  else if unseen c then ['\\', 'u', '\x7b'] ++ Nat.toDigits 16 c.toNat ++ ['\x7d']
  else [c]

/-- A text in quotes. -/
def quoted (s : String) : String :=
  String.ofList ('"' :: s.toList.flatMap quotedChar ++ ['"'])

end ExtentQuery.Text
