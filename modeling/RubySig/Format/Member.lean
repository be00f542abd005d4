import RubySig.Format.Ty
import RubySig.Tree.Fault

/-! Members in canonical form, with the comment and the annotations above them. -/
namespace RubySig

def Visibility.text : Visibility → String
  | .public_ => "public"
  | .private_ => "private"

namespace Format

def commentDocs : Option Comment → List Doc
  | none => []
  | some comment =>
    let lines := (Spell.commentLines comment.text.toList).map fun line =>
      [Doc.text ("# " ++ String.ofList line)]
    Doc.separated [Doc.hardBreak] lines ++ [Doc.hardBreak]

/-- An annotation. One with a brace inside is copied from the source, with its own delimiters. -/
def noteDoc (c : Context) (note : Note) : Doc :=
  match note.location with
  | some span =>
    if note.text.toList.any (fun x => x == '\x7b' || x == '\x7d') then
      .text (String.ofList (span.slice c.source))
    else .text ("%a\x7b" ++ note.text ++ "\x7d")
  | none => .text ("%a\x7b" ++ note.text ++ "\x7d")

/-- What stands above a member or declaration, line by line. -/
def leadDocs (c : Context) (lead : Lead) : List Doc :=
  commentDocs lead.comment ++ lead.notes.flatMap fun note => [noteDoc c note, Doc.hardBreak]

/-- Annotations in front of a signature, on its line. -/
def notesBefore (c : Context) (notes : List Note) : List Doc :=
  notes.flatMap fun note => [noteDoc c note, .text " "]

def overloadDocs (c : Context) (o : Overload) : List Doc :=
  notesBefore c o.notes ++ methodTypeDocs c o.method

def visibilityText : Option Visibility → String
  | none => ""
  | some v => v.text ++ " "

/-- What stands between `def` and the name. -/
def MethodLevel.receiver : MethodLevel → String
  | .instance_ => ""
  | .singleton => "self."
  | .both => "self?."

/-- What stands in front of the name of a member. -/
def MemberLevel.receiver : MemberLevel → String
  | .instance_ => ""
  | .singleton => "self."

/-- The instance variable behind an attribute, if it is not the implied one. -/
def Backing.text : Backing → String
  | .implied => ""
  | .absent => "()"
  | .named name => "(" ++ name ++ ")"

/-- An alias; `receiver` stands in front of both names. -/
def aliasDoc (receiver newName oldName : String) : Doc :=
  .text ("alias " ++ receiver ++ Spell.methodName newName false ++ " " ++ receiver ++
    Spell.methodName oldName false)

/-- What stands in front of the type of an attribute. -/
def attributeHeading (shown access receiver name backing : String) : Doc :=
  .text (shown ++ access ++ " " ++ receiver ++ Spell.name name true ++ backing ++ ": ")

/-- What stands in front of the colon of a method. -/
def methodHeading (shown receiver name : String) : String :=
  shown ++ "def " ++ receiver ++ Spell.methodName name true

def mixinDoc (keyword : String) (name : List Doc) (args : List (List Doc)) : Doc :=
  Doc.grouped [.text (keyword ++ " "), applied name args]

/-- The entries of a method: its signatures, and dots when there are more elsewhere. -/
def methodEntries (overloads : List (List Doc)) (overloading : Bool) : List (List Doc) :=
  overloads ++ if overloading then [[.text "..."]] else []

/-- The signatures of a method. Several stand one below the other, the bars under the colon. -/
def overloadsDocs (header : String) (entries : List (List Doc)) : List Doc :=
  match entries with
  | [entry] => .text (header ++ ": ") :: entry
  | entries =>
    [.text (header ++ ": "),
      .indent header.length (Doc.separated [Doc.hardBreak, .text "| "] entries)]

def memberDocs (c : Context) : Member → List Doc
  | .alias newName oldName level => [aliasDoc (MemberLevel.receiver level) newName oldName]
  | .attribute access name type backing level visibility =>
    [Doc.grouped (attributeHeading (visibilityText visibility) access.text
      (MemberLevel.receiver level) name (Backing.text backing) :: tyDocs c false type)]
  | .variable kind name type =>
    [Doc.grouped (.text ((if kind == .classInstance then "self." else "") ++ name ++ ": ") ::
      tyDocs c false type)]
  | .mixin kind name args => [mixinDoc kind.text [.text name.text] (tyItems c false args)]
  | .visibility v => [.text v.text]
  | .method name overloads level overloading visibility =>
    [Doc.grouped (overloadsDocs
      (methodHeading (visibilityText visibility) (MethodLevel.receiver level) name)
      (methodEntries (overloads.map (overloadDocs c)) overloading))]

end Format
end RubySig
