import RubySig.Format.Declaration
import RubySig.Settings.Basic
import RubySig.Tree.Grammar

/-! Signature files as formatted text. -/
namespace RubySig

/-- The text of layout parts on lines of the width that the settings ask for. -/
def Settings.render (settings : Settings) (docs : List Doc) : String :=
  (Doc.grouped docs).render settings.maxWidth

/-- What printing a tree needs, given the text that it was read from. -/
def Settings.context (settings : Settings) (source : String) : Format.Context :=
  ⟨source.toList, settings.indentSize⟩

/-- The formatted text of a tree that was read from `source`. -/
def Root.formatted (root : Root) (settings : Settings) (source : String) : String :=
  settings.render (Format.rootDocs (settings.context source) root)

/-- Reads a signature file and writes it anew. -/
def reformat (settings : Settings) (source : String) : Except SourceError String :=
  (Root.read source).result.map (·.formatted settings source)

end RubySig
