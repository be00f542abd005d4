import RubySig.Text.Blank
import RubySig.Text.Width

/-!
Text as a console shows it that puts pictures in the place of their names between colons and leaves
out the control characters that would move its cursor.
-/
namespace RubySig.Message

/-- A name in front of the next colon, if no blank stands in it. -/
def name? (cs : List Char) : Option (List Char × List Char) :=
  let name := cs.takeWhile fun c => c != ':' && !Text.isBlank c
  match cs.drop name.length with
  | ':' :: rest => some (name, rest)
  | _ => none

/-- Replaces the names of pictures, from left to right; a colon that has ended a name begins no
other one. -/
def pictured (picture? : List Char → Option (List Char)) : (fuel : Nat) → List Char → List Char
  | 0, cs => cs
  | _, [] => []
  | fuel + 1, c :: cs =>
    if c == ':' then
      match name? cs with
      | some (name, rest) =>
        (picture? name).getD (':' :: name ++ [':']) ++ pictured picture? fuel rest
      | none => c :: pictured picture? fuel cs
    else c :: pictured picture? fuel cs

/-- Bell, backspace, the vertical feeds and the carriage return. -/
def isDropped (c : Char) : Bool :=
  let n := c.toNat
  n == 7 || n == 8 || (11 ≤ n && n ≤ 13)

/-- A text without what the console leaves out. -/
def kept (cs : List Char) : List Char :=
  cs.filter (!isDropped ·)

/-- A message as it is shown, on a console that knows some pictures by name. -/
def shown (picture? : List Char → Option (List Char)) (s : String) : String :=
  String.ofList (kept (pictured picture? s.length s.toList))

/-- A line filled up with blanks. -/
def padded (columns : Nat) (line : List Char) : List Char :=
  let used := line.foldl (fun used c => used + Text.columns c) 0
  line ++ List.replicate (columns - used) ' '

/-- A text as a block that fills the width of the console; a line end at its end begins one more
line. -/
def filled (columns : Nat) (s : String) : String :=
  String.ofList (((kept s.toList).splitOn '\n').flatMap fun line => padded columns line ++ ['\n'])

end RubySig.Message
