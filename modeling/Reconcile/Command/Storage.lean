namespace Reconcile.Command

inductive ReadFailure where
  | missing
  | notADirectory
  | isDirectory
  | nameTooLong
  | invalidName
  | unreadable
  deriving DecidableEq

namespace ReadFailure

def message : ReadFailure → String
  | missing => "No such file or directory (os error 2)"
  | notADirectory => "Not a directory (os error 20)"
  | isDirectory => "Is a directory (os error 21)"
  | nameTooLong => "File name too long (os error 36)"
  | invalidName => "file name contained an unexpected NUL byte"
  | unreadable => "unreadable"

/-- Whether the path leads to a file or directory all the same. -/
def isThere : ReadFailure → Bool
  | isDirectory | unreadable => true
  | _ => false

end ReadFailure

/-- Operations that can fail tell whether they have succeeded. -/
class Storage (m : Type → Type) where
  read : String → m (Except ReadFailure String)
  makeDirectory : String → m Bool
  write : String → String → m Bool
  touch : String → m Bool
  print : String → m Unit

end Reconcile.Command
