import RubySig.Text.Lines

/-! Files by their paths. -/
namespace RubySig

/-- A path as its segments; the root of the file system is a segment of its own. -/
abbrev Path := List String

namespace Path

/-- The path that a text names: empty segments and single dots count for nothing. -/
def ofText (s : String) : Path :=
  let segments := ((s.toList.splitOn '/').map String.ofList).filter fun p => p != "" && p != "."
  if s.toList.head? == some '/' then "/" :: segments else segments

def text : Path → String
  | [] => "."
  | "/" :: segments => "/" ++ "/".intercalate segments
  | segments => "/".intercalate segments

/-- Whether a text can only name a directory. -/
def isDirectoryText (s : String) : Bool :=
  s.toList.getLast? == some '/'

end Path

/-- Text files, and the directories that stand beside those which the paths of files imply. -/
structure Store where
  files : List (Path × String)
  directories : List Path
  deriving DecidableEq, Repr

namespace Store

def content? (store : Store) (path : Path) : Option String :=
  store.files.lookup path

/-- Whether a path is a directory: the one where all paths begin, a known one, or one with a file
in it. -/
def isDirectory (store : Store) (path : Path) : Bool :=
  path.isEmpty || store.directories.contains path ||
    store.files.any fun (p, _) => path.isPrefixOf p && p != path

/-- Follows a path: two dots lead back from a directory. -/
def resolve (store : Store) (before : Path) : Path → Option Path
  | [] => some before
  | segment :: rest =>
    if segment == ".." then
      if store.isDirectory before && !before.isEmpty then resolve store before.dropLast rest
      else none
    else resolve store (before ++ [segment]) rest

def file? (store : Store) (name : String) : Option Path :=
  if Path.isDirectoryText name || name.isEmpty then none
  else do
    let path ← store.resolve [] (Path.ofText name)
    let _ ← store.content? path
    return path

/-- Writes a file; its place in the store stays the same if it has one. -/
def write (store : Store) (path : Path) (text : String) : Store :=
  if store.files.any (·.1 == path) then
    { store with files := store.files.map fun (p, old) =>
      if p == path then (p, text) else (p, old) }
  else { store with files := store.files ++ [(path, text)] }

/-- Why a file cannot be written. -/
inductive WriteFault where
  | noDirectory | isDirectory | notDirectory
  deriving DecidableEq, Repr

/-- The path at which a new or old file can be written. -/
def target (store : Store) (name : String) : Except WriteFault Path :=
  match store.resolve [] (Path.ofText name) with
  | none => .error .noDirectory
  | some path =>
    if store.isDirectory path then .error .isDirectory
    else if store.isDirectory path.dropLast then .ok path
    else if store.files.any fun (p, _) => p.isPrefixOf path && p != path then .error .notDirectory
    else .error .noDirectory

/-- The text of a file; every line ends with a line feed. -/
def read? (store : Store) (path : Path) : Option String :=
  (store.content? path).map fun s => String.ofList (Text.unixLines s.toList)

/-- The files that are new or have another content. -/
def changes (before after : Store) : List (Path × String) :=
  after.files.filter fun (path, text) => before.content? path != some text

end Store
end RubySig
