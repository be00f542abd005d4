import RubySig.Data.Json
import RubySig.Outline.Data
import RubySig.Outline.OfTree
import RubySig.Outline.Walk
import RubySig.Version

/-! Trees as documents: the data of the tree, and data about it. -/
namespace RubySig

inductive DocumentFormat where
  | json | yaml
  deriving DecidableEq, Repr

def DocumentFormat.name : DocumentFormat → String
  | .json => "rbsast-json"
  | .yaml => "rbsast-yaml"

namespace Root

def metadata (root : Root) (format : DocumentFormat) : Except TreeFault Datum := do
  let counts ← root.outline.counts
  return .record [("format", .str format.name), ("version", .str Version.library.text),
    ("rbs_version", .str Version.language.text), ("ast_type", .str NodeKind.root.name),
    ("declarations_count", .int root.declarations.length),
    ("node_counts", .record (counts.map fun (name, n) => (name, .int n)))]

def document (root : Root) (format : DocumentFormat) (metadata locations : Bool) :
    Except TreeFault Datum := do
  let tree ← root.outline.record locations
  if metadata then return .record [("ast", tree), ("metadata", ← root.metadata format)]
  else return .record [("ast", tree)]

end Root
end RubySig
