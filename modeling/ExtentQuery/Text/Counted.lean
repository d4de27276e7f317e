/-!
# Counted text

A text written after its own length can be read back without any escaping, whatever
characters it holds: the length ends at the colon, and it says where the text ends.
Canonical texts write every name this way, so that no two different lists of names share
a canonical text.
-/

namespace ExtentQuery.Text

/-- A text preceded by its length in bytes and a colon. -/
def counted (s : String) : String :=
  toString s.utf8ByteSize ++ ":" ++ s

end ExtentQuery.Text
