import RubySig.Command.Listing
import RubySig.Command.Request

/-!
What the commands are built on: a reader of command lines, a reader and a writer of data, and a
console. Nothing is said here of how they work.
-/
namespace RubySig.Command

structure Console where
  /-- A message as it comes out, on a line of its own. -/
  message : String → String
  /-- A text as it comes out as a block of code. -/
  block : String → String
  /-- A listing with its guides, as wide as the console or as it is told. -/
  listing : (columns : Option Nat) → Listing → String

structure Platform where
  commandLine : List String → CommandLine
  /-- The data in a text; values that are no plain data stand there as texts. -/
  data? : String → Option Datum
  yaml : Datum → String
  console : Console

end RubySig.Command
