/-! What the commands are asked for. -/
namespace RubySig.Command

/-- The forms in which a tree can be dumped. -/
inductive OutputFormat where
  | sexp | json | yaml | tree
  deriving DecidableEq, Repr

def OutputFormat.name : OutputFormat → String
  | .sexp => "sexp"
  | .json => "json"
  | .yaml => "yaml"
  | .tree => "tree"

def OutputFormat.ofName? (name : String) : Option OutputFormat :=
  [OutputFormat.sexp, .json, .yaml, .tree].find? (·.name == name)

@[ext]
structure LineWidth where
  columns : Nat
  columns_pos : 0 < columns
  deriving Repr

instance : DecidableEq LineWidth := fun _ _ => decidable_of_iff _ LineWidth.ext_iff.symm

/-- How files are to be formatted. -/
structure FormatOptions where
  write : Bool
  check : Bool
  diff : Bool
  width : Option LineWidth
  config : Option String
  deriving DecidableEq, Repr

inductive Request where
  | version
  | format (options : FormatOptions) (files : List String)
  | parse (output : Option String) (format : OutputFormat) (file : String)
  | validate (files : List String)
  deriving DecidableEq, Repr

def Request.inputs : Request → List String
  | .version => []
  | .format options files => options.config.toList ++ files
  | .parse _ _ file => [file]
  | .validate files => files

inductive CommandLine where
  | request (request : Request) (verbose : Bool)
  /-- It asks for a text only, such as help. -/
  | answer (text : String)
  /-- It breaks the rules. -/
  | misuse
  deriving DecidableEq, Repr

end RubySig.Command
