import RubySig.Layout.Doc

/-! Building layout documents step by step. -/
namespace RubySig.Doc

inductive Step where
  | text (s : String)
  | breakable (separator : String) (force margin : Bool)
  | group (steps : List Step)
  /-- One level deeper. -/
  | indent (steps : List Step)
  | nest (width : Int) (steps : List Step)
  /-- Items with the steps of a separator between them, or else with a comma and a space. -/
  | separated (items : List (List Step)) (separator : Option (List Step))
  deriving Inhabited

mutual

/-- What steps build, with levels of `size` columns. -/
def built (size : Int) : List Step → List Doc
  | [] => []
  | s :: steps => builtBy size s ++ built size steps

def builtBy (size : Int) : Step → List Doc
  | .text s => [.text s]
  | .breakable separator force margin => [.breakable separator force margin]
  | .group steps => [grouped (built size steps)]
  | .indent steps => [.indent size (built size steps)]
  | .nest width steps => [.indent width (built size steps)]
  | .separated items none => commaSeparated (builtEach size items)
  | .separated items (some separator) => separated (built size separator) (builtEach size items)

def builtEach (size : Int) : List (List Step) → List (List Doc)
  | [] => []
  | steps :: items => built size steps :: builtEach size items

end

/-- The document that steps build. -/
def ofSteps (size : Int) (steps : List Step) : Doc :=
  grouped (built size steps)

end RubySig.Doc
