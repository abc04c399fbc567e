import CartLua.Cli.Run
import CartLua.Include.Mention
/-!
# The command line program

Reads the documents that a command line may need from the disk and runs it on them.
-/

namespace CartLua.Main

def read (path : String) : IO (Except ReadFault String) := do
  let location := System.mkFilePath [path]
  if ← location.isDir then return .error .isFolder
  try
    let bytes ← IO.FS.readBinFile location
    return match String.fromUTF8? bytes with
      | some text => .ok text
      | none => .error .notText
  catch
    | .noFileOrDirectory .. => return .error .missing
    | .permissionDenied .. => return .error .denied
    | e => return .error (if ← location.pathExists then .other (toString e) else .missing)

/-- Adds the documents at the given paths, and those they mention, to a store. -/
partial def gather (store : Store) : List String → IO Store
  | [] => return store
  | path :: rest => do
    if store.contains path then gather store rest
    else
      match ← read path with
      | .ok text => gather (store.insert path text) (mentioned path text ++ rest)
      | .error .missing => gather store rest
      | .error .isFolder => gather { store with folders := path :: store.folders } rest
      | .error fault => gather { store with unreadable := (path, fault.message) :: store.unreadable } rest

def readAll : List String → IO (List (String × Except ReadFault String))
  | [] => return []
  | path :: rest => do return (path, ← read path) :: (← readAll rest)

def disk (command : Cli.Command) : IO Cli.Disk := do
  let roots ← readAll command.files
  let targets := roots.flatMap fun
    | (path, .ok text) => mentioned path text
    | (_, .error _) => []
  let store ← gather {} targets
  return { read := fun path => (roots.lookup path).getD (.error .missing), store }

end CartLua.Main

open CartLua in
def main (args : List String) : IO UInt32 := do
  let disk ← match Cli.Request.ofArguments? args with
    | some r => Main.disk r.command
    | none => pure (Cli.Disk.ofStore {})
  let outcome := Cli.run disk args
  IO.print outcome.output
  IO.eprint outcome.errors
  return UInt32.ofNat outcome.code
