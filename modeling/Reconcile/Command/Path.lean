namespace Reconcile.Command

def nameLimit : Nat := 255

def pathLimit : Nat := 4095

/-- The parts of a path. One that is empty or a dot stays where it is, two dots lead to the directory
above, anything else is a name; a path from the top starts with a slash. -/
def components (path : String) : List String :=
  match path.splitToList (· = '/') with
  | "" :: rest@(_ :: _) => "/" :: rest
  | parts => parts

def stays (part : String) : Bool := part = "" || part = "."

def moves (path : String) : List String := (components path).filter fun part => !stays part

/-- The path of the directory that a path leads into; `none` if it leads nowhere else. -/
def parent? (path : String) : Option String :=
  match moves path with
  | [] | ["/"] => none
  | parts => some ("/".intercalate parts.dropLast)

def join (directory name : String) : String :=
  if directory = "" || directory.endsWith "/" then directory ++ name
  else directory ++ "/" ++ name

/-- Whether dots follow the last part that leads elsewhere. -/
def endsInDot (path : String) : Bool :=
  ((components path).reverse.takeWhile stays).contains "."

/-- The names that lead to a file or directory from the starting directory. Above that, nothing is
known but how far up it is. -/
abbrev Place := List String

namespace Place

def above (place : Place) : Place :=
  if place = ["/"] then place
  else if place.all (· = "..") then place ++ [".."]
  else place.dropLast

def isInside : Place → Bool
  | [] => false
  | part :: _ => part ≠ "/" && part ≠ ".."

end Place

end Reconcile.Command
