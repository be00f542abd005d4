/-!
Layout documents: text with places where a line may end. A group is kept on one line when it fits
with what follows it; otherwise each of its own places becomes a line end.
-/
namespace RubySig

/-- A document: text, possible line breaks, and groups that break or stay flat as a whole. -/
inductive Doc where
  | text (s : String)
  /-- A `broken` group is never kept on one line. -/
  | group (broken : Bool) (contents : List Doc)
  /-- Lines that begin inside start `width` columns further right. -/
  | indent (width : Int) (contents : List Doc)
  /-- A place where a line may end, or must if `force`; else the separator is written. Unless
  `margin`, the next line starts at column zero and the old one keeps its trailing blanks. -/
  | breakable (separator : String) (force : Bool) (margin : Bool)
  deriving Inhabited

namespace Doc

mutual

/-- Whether a line end is forced somewhere inside. -/
def forced : Doc → Bool
  | .text _ => false
  | .group _ contents => anyForced contents
  | .indent _ contents => anyForced contents
  | .breakable _ force _ => force

def anyForced : List Doc → Bool
  | [] => false
  | d :: ds => d.forced || anyForced ds

end

mutual

/-- Whether a forced line end reaches the enclosing group; a finished group knows for itself. -/
def breaks : Doc → Bool
  | .text _ => false
  | .group broken _ => broken
  | .indent _ contents => anyBreaks contents
  | .breakable _ force _ => force

def anyBreaks : List Doc → Bool
  | [] => false
  | d :: ds => d.breaks || anyBreaks ds

end

/-- A group, broken exactly when its contents force a line end. -/
def grouped (contents : List Doc) : Doc :=
  .group (anyBreaks contents) contents

/-- A line end, or one space. -/
def space : Doc := .breakable " " false true

/-- A line end, or nothing. -/
def softBreak : Doc := .breakable "" false true

/-- A line end in any case. -/
def hardBreak : Doc := .breakable "" true true

/-- A line end in any case, behind which text goes on verbatim. -/
def rawBreak : Doc := .breakable "" true false

def separated (separator : List Doc) (items : List (List Doc)) : List Doc :=
  separator.intercalate items

/-- Items with a comma and a place to break between them. -/
def commaSeparated (items : List (List Doc)) : List Doc :=
  separated [.text ",", space] items

/-- Whether the breaks of a group are printed as line ends or on one line. -/
inductive Mode where
  | flat | broken
  deriving DecidableEq, Repr

/-- What measuring leaves: the columns that are still free, or the answer at the first line end. -/
inductive Room where
  | left (columns : Int)
  | decided (fits : Bool)
  deriving DecidableEq, Repr

/-- Takes columns away. -/
def spend (room : Int) (columns : Nat) : Room :=
  if room - columns < 0 then .decided false else .left (room - columns)

mutual

/-- Measures a document up to the first line end that it is certain to bring. -/
def measure (mode : Mode) (room : Int) : Doc → Room
  | .text s => spend room s.length
  | .group broken contents => measureAll (if broken then .broken else mode) room contents
  | .indent _ contents => measureAll mode room contents
  | .breakable separator force _ =>
    if mode == .flat && !force then spend room separator.length else .decided true

def measureAll (mode : Mode) (room : Int) : List Doc → Room
  | [] => .left room
  | d :: ds =>
    match measure mode room d with
    | .left room => measureAll mode room ds
    | .decided fits => .decided fits

end

/-- What follows a document: the rest of each container around it, innermost first. -/
abbrev Following := List (Mode × List Doc)

def measureFollowing (room : Int) : Following → Bool
  | [] => true
  | (mode, ds) :: rest =>
    match measureAll mode room ds with
    | .left room => measureFollowing room rest
    | .decided fits => fits

/-- Whether contents on one line, and what follows up to its first line end, fit a width. -/
def fits (contents : List Doc) (following : Following) (width : Int) : Bool :=
  if width < 0 then false
  else match measureAll .flat width contents with
    | .left room => measureFollowing room following
    | .decided fits => fits

/-- Text written so far, last character first, and the column reached. -/
structure Output where
  reversed : List Char
  column : Int
  deriving DecidableEq, Repr

namespace Output

def write (o : Output) (text : String) : Output where
  reversed := text.toList.reverseAux o.reversed
  column := o.column + text.length

/-- Starts a line at a column, without trailing blanks on the line before. -/
def newline (o : Output) (indent : Int) : Output where
  reversed := List.replicate indent.toNat ' ' ++
    '\n' :: o.reversed.dropWhile fun c => c == ' ' || c == '\t'
  column := indent

/-- Starts a line at column zero and leaves the line before as it is. -/
def rawNewline (o : Output) : Output where
  reversed := '\n' :: o.reversed
  column := 0

end Output

mutual

/-- Writes a document behind `o`. -/
def write (width : Int) (following : Following) (indent : Int) (mode : Mode) :
    Doc → Output → Output
  | .text s, o => o.write s
  | .group broken contents, o =>
    let inner :=
      if broken then .broken
      else if mode == .flat || fits contents following (width - o.column) then .flat
      else .broken
    writeAll width following indent inner contents o
  | .indent extra contents, o => writeAll width following (indent + extra) mode contents o
  | .breakable separator force margin, o =>
    if mode == .flat && !force then o.write separator
    else if margin then o.newline indent
    else o.rawNewline

def writeAll (width : Int) (following : Following) (indent : Int) (mode : Mode) :
    List Doc → Output → Output
  | [], o => o
  | d :: ds, o =>
    writeAll width following indent mode ds (d.write width ((mode, ds) :: following) indent mode o)

end

/-- The text of a document, on lines of `width` columns where it can be broken. -/
def render (width : Int) (d : Doc) : String :=
  String.ofList (d.write width [] 0 .broken ⟨[], 0⟩).reversed.reverse

end Doc
end RubySig
