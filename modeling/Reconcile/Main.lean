import Reconcile.Command.Run

namespace Reconcile.Command

def succeeds (action : IO Unit) : IO Bool := do
  try
    action
    return true
  catch _ => return false

def readFailure : IO.Error → ReadFailure
  | .noFileOrDirectory .. => .missing
  | .inappropriateType _ 21 _ => .isDirectory
  | .inappropriateType .. => .notADirectory
  | .invalidArgument .. => .nameTooLong
  | _ => .unreadable

def makeAll (path : String) : IO Bool := do
  if path = "" then return true
  succeeds (IO.FS.createDirAll path)

/-- Whether a path that ends in a dot leads to a directory. It cannot be made; the error tells why. -/
def isDirectoryDot (path : String) : IO Bool := do
  try
    IO.FS.createDir path
    return true
  catch
    | .alreadyExists .. => return true
    | _ => return false

instance : Storage IO where
  read path := do
    try return .ok (← IO.FS.readFile path)
    catch e => return .error (readFailure e)
  makeDirectory path := do
    if endsInDot path then
      match parent? path with
      | some above => unless ← makeAll above do return false
      | none => pure ()
      isDirectoryDot path
    else makeAll path
  write path text := succeeds (IO.FS.writeFile path text)
  touch path := succeeds do
    let _ ← IO.FS.Handle.mk path .append
  print text := do
    let out ← IO.getStdout
    out.putStr text
    out.flush

end Reconcile.Command

def main (args : List String) : IO UInt32 := do
  let outcome ← Reconcile.Command.execute args
  match outcome with
  | .failure f => IO.eprintln ("Error: " ++ f.message)
  | .usage => IO.eprintln "error: the arguments are not understood"
  | .success => pure ()
  return outcome.exitCode.toUInt32
