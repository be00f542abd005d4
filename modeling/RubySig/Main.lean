import RubySig.Command.Run

/-! The command line program. -/
namespace RubySig.Command

/-- What a file system says about one path. -/
def lookUp (store : Store) (name : String) : IO Store := do
  let path := Path.ofText name
  try
    let text ← IO.FS.readFile name
    return { store with files := (path, text) :: store.files }
  catch _ =>
    return store

def lookUpTarget (store : Store) (name : String) : IO Store := do
  let path := Path.ofText name
  try
    let _ ← IO.FS.readFile (Path.text path.dropLast ++ "/.")
    return store
  catch e =>
    match e with
    | .noFileOrDirectory .. => return store
    | _ => return { store with directories := path.dropLast :: store.directories }

def load (request : Request) : IO Store := do
  let mut store : Store := ⟨[], []⟩
  for name in request.inputs do
    store ← lookUp store name
  match request with
  | .parse (some output) _ _ => lookUpTarget store output
  | _ => return store

end RubySig.Command

open RubySig RubySig.Command in
def main (args : List String) : IO UInt32 := do
  let store ← match Platform.standard.commandLine args with
    | .request request _ => load request
    | _ => pure ⟨[], []⟩
  let (status, session) := run store args
  for (path, text) in store.changes session.store do
    IO.FS.writeFile (Path.text path) text
  IO.print session.out
  IO.eprint session.err
  return UInt32.ofNat status.exitCode
