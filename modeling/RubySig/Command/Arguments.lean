import RubySig.Command.Request
import RubySig.Text.Integer

/-!
A reader of command lines: the options of each command, with their values, and its files. It has no
help to give.
-/
namespace RubySig.Command

/-- An option by its names; some take a value. -/
structure Switch where
  short : Option Char
  long : String
  takesValue : Bool
  deriving DecidableEq, Repr

/-- Logs all that happens. -/
def verboseSwitch : Switch := ⟨some 'v', "--verbose", false⟩
def versionSwitch : Switch := ⟨none, "--version", false⟩
def writeSwitch : Switch := ⟨some 'w', "--write", false⟩
def checkSwitch : Switch := ⟨none, "--check", false⟩
def diffSwitch : Switch := ⟨none, "--diff", false⟩
def widthSwitch : Switch := ⟨none, "--width", true⟩
def configSwitch : Switch := ⟨some 'c', "--config", true⟩
def outputSwitch : Switch := ⟨some 'o', "--output", true⟩
def formatSwitch : Switch := ⟨some 'f', "--format", true⟩

/-- The options given, with their values, and the other words. -/
structure Words where
  given : List (Switch × String)
  rest : List String
  deriving DecidableEq, Repr

def Words.value? (words : Words) (s : Switch) : Option String :=
  words.given.reverse.lookup s

def Words.has (words : Words) (s : Switch) : Bool :=
  (words.value? s).isSome

/-- The name in front of an equals sign, and the value behind it. -/
def splitEquals (word : List Char) : String × Option String :=
  let name := word.takeWhile (· != '=')
  (String.ofList name,
    if name.length < word.length then some (String.ofList (word.drop (name.length + 1))) else none)

/-- Reads the letters of short options. What follows the letter of an option with a value is its
value, or else the next word. -/
def shortOptions (switches : List Switch) :
    List Char → List String → Option (List (Switch × String) × List String)
  | [], words => some ([], words)
  | c :: cs, words => do
    let s ← switches.find? (·.short == some c)
    if s.takesValue then
      match cs, words with
      | [], value :: words => some ([(s, value)], words)
      | [], [] => none
      | cs, words => some ([(s, String.ofList cs)], words)
    else
      let (given, words) ← shortOptions switches cs words
      return ((s, "") :: given, words)

/-- Reads one word that begins with a dash, and its value from the words behind it. -/
def option (switches : List Switch) (word : String) (words : List String) :
    Option (List (Switch × String) × List String) :=
  let (name, value) := splitEquals word.toList
  match switches.find? (·.long == name), value, words with
  | some s, some value, words => if s.takesValue then some ([(s, value)], words) else none
  | some s, none, words =>
    if s.takesValue then
      match words with
      | value :: words => some ([(s, value)], words)
      | [] => none
    else some ([(s, "")], words)
  | none, _, words =>
    match word.toList with
    | '-' :: '-' :: _ => none
    | _ :: letters => shortOptions switches letters words
    | [] => none

def isOption (word : String) : Bool :=
  match word.toList with
  | '-' :: _ :: _ => true
  | _ => false

/-- Separates options from other words. Two dashes end the options; so does the first other word,
unless `mixed`. -/
def words (switches : List Switch) (mixed : Bool) : (fuel : Nat) → List String → Option Words
  | 0, rest => some ⟨[], rest⟩
  | _, [] => some ⟨[], []⟩
  | fuel + 1, word :: rest =>
    if word == "--" then some ⟨[], rest⟩
    else if isOption word then do
      let (given, rest) ← option switches word rest
      let more ← words switches mixed fuel rest
      return ⟨given ++ more.given, more.rest⟩
    else if mixed then do
      let more ← words switches mixed fuel rest
      return ⟨more.given, word :: more.rest⟩
    else some ⟨[], word :: rest⟩

def wordsOf (switches : List Switch) (mixed : Bool) (args : List String) : Option Words :=
  words switches mixed args.length args

def lineWidth? (s : String) : Option LineWidth := do
  let n ← Text.integer? s.toList
  if h : 0 < n.toNat then return ⟨n.toNat, h⟩ else none

def formatRequest? (args : List String) : Option Request := do
  let w ← wordsOf [writeSwitch, checkSwitch, diffSwitch, widthSwitch, configSwitch] true args
  if w.rest.isEmpty then none
  let width ← match w.value? widthSwitch with
    | none => some none
    | some s => (lineWidth? s).map some
  return .format ⟨w.has writeSwitch, w.has checkSwitch, w.has diffSwitch, width,
    w.value? configSwitch⟩ w.rest

def parseRequest? (args : List String) : Option Request := do
  let w ← wordsOf [outputSwitch, formatSwitch] true args
  let format ← match w.value? formatSwitch with
    | none => some OutputFormat.sexp
    | some s => OutputFormat.ofName? s
  match w.rest with
  | [file] => return .parse (w.value? outputSwitch) format file
  | _ => none

def validateRequest? (args : List String) : Option Request := do
  let w ← wordsOf [] true args
  if w.rest.isEmpty then none
  return .validate w.rest

/-- What a command line asks for, and whether verbosely; nothing if it breaks the rules. -/
def request? (args : List String) : Option (Request × Bool) := do
  let w ← wordsOf [verboseSwitch, versionSwitch] false args
  let verbose := w.has verboseSwitch
  if w.has versionSwitch then return (.version, verbose)
  match w.rest with
  | "format" :: rest => return (← formatRequest? rest, verbose)
  | "parse" :: rest => return (← parseRequest? rest, verbose)
  | "validate" :: rest => return (← validateRequest? rest, verbose)
  | _ => none

def commandLine (args : List String) : CommandLine :=
  match request? args with
  | some (request, verbose) => .request request verbose
  | none => .misuse

end RubySig.Command
