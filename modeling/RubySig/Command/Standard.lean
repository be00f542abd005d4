import RubySig.Command.Arguments
import RubySig.Command.Message
import RubySig.Command.Platform
import RubySig.Yaml.Read
import RubySig.Yaml.Text

/-! The platform that the program runs on. -/
namespace RubySig

namespace Message

def numberPicture? (name : List Char) : Option (List Char) :=
  if name == ['1', '0', '0'] then some ['💯']
  else if name == ['1', '2', '3', '4'] then some ['🔢']
  else none

end Message

namespace Listing

mutual

/-- The lines of a listing. `margin` stands in front of all lines but the first. -/
def lines (shown : String → String) (margin : String) : Listing → List String
  | .entry label below => shown label :: linesBelow shown margin below

def linesBelow (shown : String → String) (margin : String) : List Listing → List String
  | [] => []
  | l :: rest =>
    let (first, later) := if rest.isEmpty then ("└── ", "    ") else ("├── ", "│   ")
    (match lines shown (margin ++ later) l with
      | top :: more => (margin ++ first ++ top) :: more
      | [] => []) ++ linesBelow shown margin rest

end

def text (shown : String → String) (l : Listing) : String :=
  String.join ((lines shown "" l).map (· ++ "\n"))

end Listing

namespace Command

/-- A console of 80 columns that knows the pictures of two numbers; no listing is wider. -/
def Console.standard : Console where
  message := Message.shown Message.numberPicture?
  block := Message.filled 80
  listing _ := Listing.text (Message.shown Message.numberPicture?)

def Platform.standard : Platform where
  commandLine := Command.commandLine
  data? := Yaml.read?
  yaml := Yaml.text false
  console := Console.standard

end Command
end RubySig
