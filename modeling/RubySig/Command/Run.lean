import RubySig.Command.Standard
import RubySig.Command.Store
import RubySig.Diff.Unified
import RubySig.Format.Text
import RubySig.Outline.Document
import RubySig.Outline.Form
import RubySig.Settings.File

/-! Commands on files: what they print, which files they change, and how they end. -/
namespace RubySig.Command

/-- Why a command breaks off in the middle. -/
inductive Failure where
  | value (fault : ValueFault)
  | settings (fault : Settings.Fault)
  | tree (fault : TreeFault)
  | write (fault : Store.WriteFault)

inductive Status where
  | done
  | failed
  /-- The command line breaks the rules. -/
  | misused
  | broken (failure : Failure)

/-- What a command has printed, the files as it leaves them, and whether it logs all it does. -/
structure Session where
  verbose : Bool
  out : String
  err : String
  store : Store

namespace Session

def print (s : Session) (text : String) : Session :=
  { s with out := s.out ++ text }

def say (s : Session) (console : Console) (message : String) : Session :=
  s.print (console.message message ++ "\n")

/-- Reports what went wrong. -/
def complain (s : Session) (console : Console) (message : String) : Session :=
  { s with err := s.err ++ console.message message ++ "\n" }

def abort (s : Session) : Session :=
  { s with err := s.err ++ "Aborted!\n" }

/-- Logs a warning; its source is named only when everything is logged. -/
def warn (s : Session) (source message : String) : Session :=
  { s with err := s.err ++ (if s.verbose then "WARNING " ++ source ++ ": " else "") ++ message
      ++ "\n" }

/-- Logs a message that only matters when everything is logged. -/
def debug (s : Session) (source message : String) : Session :=
  if s.verbose then { s with err := s.err ++ "DEBUG " ++ source ++ ": " ++ message ++ "\n" }
  else s

end Session

def readerName : String := "rbsast.parser.parser"
def commandName : String := "rbsast.cli.main"

def readTree (s : Session) (text : String) : Session × Except SourceError Root :=
  let reading := Root.read text
  let s := reading.warnings.foldl (fun s w => s.warn readerName w.message) s
  match reading.result with
  | .error e => (s, .error e)
  | .ok root =>
    (s.debug readerName s!"Parsed {root.declarations.length} declarations", .ok root)

/-- A file that a command works on: the path as it is shown, and as it is found. -/
structure Input where
  name : String
  path : Path
  deriving DecidableEq, Repr

def Input.of? (store : Store) (name : String) : Option Input := do
  return ⟨Path.text (Path.ofText name), ← store.file? name⟩

def reportError (console : Console) (s : Session) (input : Input) (message : String)
    (place : Position) : Session :=
  s.complain console s!"{input.name}:{place.line}:{place.column}: {message}"

def textOf (s : Session) (input : Input) : String :=
  (s.store.read? input.path).getD ""

/-- What has become of the files so far. -/
structure Tally where
  failed : Bool
  changed : Nat
  deriving DecidableEq, Repr

/-- Shows, checks or writes the formatted text of one file. -/
def deliver (console : Console) (options : FormatOptions) (s : Session) (input : Input)
    (old new : String) : Session :=
  if options.diff then
    if new == old then s
    else s.print (console.block
      (Diff.text (input.name ++ " (original)") (input.name ++ " (formatted)") old new))
  else if options.check then
    if new == old then s else s.say console ("would reformat " ++ input.name)
  else if options.write then
    if new == old then s
    else { s with store := s.store.write input.path new }.say console ("reformatted " ++ input.name)
  else s.print new

/-- Formats files one after the other. A file that is no signature file is reported, and the
others are formatted all the same. -/
def formatFiles (console : Console) (settings : Settings) (options : FormatOptions) :
    List Input → Tally → Session → Except (Session × Failure) (Session × Tally)
  | [], tally, s => .ok (s, tally)
  | input :: inputs, tally, s =>
    let old := textOf s input
    let (s, result) := readTree s old
    match result with
    | .error e =>
      match e.report?, e with
      | some (message, place), _ =>
        formatFiles console settings options inputs { tally with failed := true }
          (reportError console s input message place)
      | none, .value fault => .error (s, .value fault)
      | none, _ => .ok (s, tally)
    | .ok root =>
      let new := root.formatted settings old
      let tally := if new == old then tally else { tally with changed := tally.changed + 1 }
      formatFiles console settings options inputs tally (deliver console options s input old new)

/-- The options of the formatter; a width on the command line wins over the one in a file. -/
def loadSettings (data? : String → Option Datum) (s : Session) (options : FormatOptions)
    (config : Option Input) : Except Settings.Fault Settings := do
  let settings ← match options.config, config with
    | some name, some input =>
      if name.isEmpty then pure Settings.standard else Settings.ofFile data? name (textOf s input)
    | _, _ => pure Settings.standard
  match options.width with
  | none => return settings
  | some w => return settings.withWidth w.columns w.columns_pos

def runFormat (platform : Platform) (options : FormatOptions) (config : Option Input)
    (inputs : List Input) (s : Session) : Status × Session :=
  match loadSettings platform.data? s options config with
  | .error fault =>
    match fault.message? with
    | some message =>
      (.failed, (s.complain platform.console ("Invalid configuration: " ++ message)).abort)
    | none => (.broken (.settings fault), s)
  | .ok settings =>
    match formatFiles platform.console settings options inputs ⟨false, 0⟩ s with
    | .error (s, failure) => (.broken failure, s)
    | .ok (s, tally) =>
      let s := s.debug commandName
        s!"Formatted {inputs.length} file(s), {tally.changed} changed"
      (if tally.failed || (options.check && tally.changed > 0) then .failed else .done, s)

/-- The dump of a tree; a listing in a file has a width of its own. -/
def dump (platform : Platform) (columns : Option Nat) (format : OutputFormat) (root : Root) :
    Except TreeFault String := do
  match format with
  | .sexp => root.outline.formText 2 80
  | .json => return Json.indented 0 (← root.document .json true false) ++ "\n"
  | .yaml => return platform.yaml (← root.document .yaml true false)
  | .tree =>
    return platform.console.listing columns (Listing.ofRoot (← root.outline.record false))

/-- Dumps the tree of one file, on the console or into another file. -/
def runParse (platform : Platform) (output : Option String) (format : OutputFormat) (input : Input)
    (s : Session) : Status × Session :=
  let console := platform.console
  let target := output.filter (!·.isEmpty)
  let (s, result) := readTree s (textOf s input)
  match result with
  | .error e =>
    match e.report?, e with
    | some (message, place), _ => (.failed, (reportError console s input message place).abort)
    | none, .value fault => (.broken (.value fault), s)
    | none, _ => (.failed, s)
  | .ok root =>
    match dump platform (target.map fun _ => 120) format root with
    | .error fault => (.broken (.tree fault), s)
    | .ok text =>
      match target with
      | none => (.done, s.print text)
      | some name =>
        match s.store.target name with
        | .error fault => (.broken (.write fault), s)
        | .ok path =>
          (.done, { s with store := s.store.write path text }.say console
            ("AST " ++ format.name ++ " written to " ++ name))

/-- The counts that validation tells about, in their order. -/
def toldCounts : List (String × String) :=
  [("classes", "classes"), ("modules", "modules"), ("interfaces", "interfaces"),
    ("type_aliases", "type aliases"), ("constants", "constants"), ("globals", "globals"),
    ("methods", "methods")]

/-- How many declarations of each kind there are, in words. -/
def describeCounts (counts : List (String × Nat)) : String :=
  let parts := toldCounts.filterMap fun (name, words) =>
    (counts.lookup name).map fun n => toString n ++ " " ++ words
  if parts.isEmpty then "no declarations" else ", ".intercalate parts

def validateFiles (console : Console) : List Input → (failed : Bool) → Session → Status × Session
  | [], failed, s => (if failed then .failed else .done, s)
  | input :: inputs, failed, s =>
    let (s, result) := readTree s (textOf s input)
    match result with
    | .error e =>
      match e.report?, e with
      | some (message, place), _ =>
        validateFiles console inputs true (reportError console s input message place)
      | none, .value fault => (.broken (.value fault), s)
      | none, _ => (.failed, s)
    | .ok root =>
      match root.outline.counts with
      | .error fault => (.broken (.tree fault), s)
      | .ok counts =>
        validateFiles console inputs failed
          (s.say console ("✓ " ++ input.name ++ ": " ++ describeCounts counts))

/-- Carries out a request; nothing if it names a file that is not there. -/
def Request.run? (platform : Platform) (request : Request) (s : Session) :
    Option (Status × Session) := do
  match request with
  | .version => return (.done, s.print ("rbsast, version " ++ Version.library.text ++ "\n"))
  | .format options files =>
    let inputs ← files.mapM (Input.of? s.store)
    let config ← match options.config with
      | none => some none
      | some name => (Input.of? s.store name).map some
    return runFormat platform options config inputs s
  | .parse output shape file =>
    return runParse platform output shape (← Input.of? s.store file) s
  | .validate files =>
    return validateFiles platform.console (← files.mapM (Input.of? s.store)) false s

def Platform.run (platform : Platform) (store : Store) (args : List String) : Status × Session :=
  match platform.commandLine args with
  | .misuse => (.misused, ⟨false, "", "", store⟩)
  | .answer text => (.done, ⟨false, text, "", store⟩)
  | .request request verbose =>
    let s : Session := ⟨verbose, "", "", store⟩
    (request.run? platform s).getD (.misused, s)

def run (store : Store) (args : List String) : Status × Session :=
  Platform.standard.run store args

def Status.exitCode : Status → Nat
  | .done => 0
  | .failed | .broken _ => 1
  | .misused => 2

end RubySig.Command
