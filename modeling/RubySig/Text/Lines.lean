/-! Line ends: a carriage return before a line feed makes one end with it. -/
namespace RubySig.Text

/-- Drops the carriage returns that stand before a line feed. -/
def joinLineEnds : List Char → List Char
  | [] => []
  | '\r' :: '\n' :: cs => '\n' :: joinLineEnds cs
  | c :: cs => c :: joinLineEnds cs

def unixLines (cs : List Char) : List Char :=
  (joinLineEnds cs).map fun c => if c == '\r' then '\n' else c

end RubySig.Text
