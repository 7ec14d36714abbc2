import Reconcile.Command.Path
import Reconcile.Command.Storage

namespace Reconcile.Command

/-- Files by their places, with their texts, and directories that have been made. Whatever is on the
way to one of them is a directory too. -/
structure Files where
  texts : List (Place × String) := []
  directories : List Place := []

namespace Files

def text? (fs : Files) (place : Place) : Option String := fs.texts.lookup place

def isDirectory (fs : Files) (place : Place) : Bool :=
  place = ["/"] || place.all (· = "..") || fs.directories.any place.isPrefixOf ||
    fs.texts.any fun file => place.isPrefixOf file.1 && place.length < file.1.length

/-- Follows parts of a path from a place. The last name need not exist. -/
def walk (fs : Files) (here : Place) : List String → Except ReadFailure Place
  | [] => .ok here
  | part :: parts =>
      if fs.isDirectory here then
        if stays part then fs.walk here parts
        else if part = ".." then fs.walk (Place.above here) parts
        else if nameLimit < part.utf8ByteSize then .error .nameTooLong
        else fs.walk (here ++ [part]) parts
      else if (fs.text? here).isSome then .error .notADirectory
      else .error .missing

def checkPath (path : String) : Except ReadFailure Unit :=
  if path.toList.contains (Char.ofNat 0) then .error .invalidName
  else if pathLimit < path.utf8ByteSize then .error .nameTooLong
  else .ok ()

def locate (fs : Files) (path : String) : Except ReadFailure Place := do
  checkPath path
  fs.walk [] (components path)

def read (fs : Files) (path : String) : Except ReadFailure String := do
  let place ← fs.locate path
  if fs.isDirectory place then throw .isDirectory
  match fs.text? place with
  | some text => return text
  | none => throw .missing

def leadsToDirectory (fs : Files) (path : String) : Bool :=
  match fs.locate path with
  | .ok place => fs.isDirectory place
  | .error _ => false

def makeAlong (fs : Files) (here : Place) : List String → Option Files
  | [] => some fs
  | part :: parts =>
      if stays part then fs.makeAlong here parts
      else if part = ".." then fs.makeAlong (Place.above here) parts
      else
        let next := here ++ [part]
        if nameLimit < part.utf8ByteSize || (fs.text? next).isSome then none
        else if fs.isDirectory next then fs.makeAlong next parts
        else { fs with directories := next :: fs.directories.erase here }.makeAlong next parts

/-- Makes a directory and those above it. If the path ends in a dot, the directory before the dot is
not made and has to be there. -/
def makeDirectory? (fs : Files) (path : String) : Option Files := do
  match checkPath path with
  | .error _ => none
  | .ok () =>
      if endsInDot path then
        let fs ← fs.makeAlong [] (moves path).dropLast
        guard (fs.leadsToDirectory path)
        return fs
      else fs.makeAlong [] (components path)

def put (texts : List (Place × String)) (place : Place) (text : String) : List (Place × String) :=
  match texts with
  | [] => [(place, text)]
  | file :: rest => if file.1 = place then (place, text) :: rest else file :: put rest place text

def write? (fs : Files) (path : String) (text : String) : Option Files :=
  match fs.locate path with
  | .ok place =>
      if fs.isDirectory place then none else some { fs with texts := put fs.texts place text }
  | .error _ => none

def touch? (fs : Files) (path : String) : Option Files :=
  match fs.read path with
  | .ok _ => some fs
  | .error _ => fs.write? path ""

def listing (fs : Files) : List (String × String) :=
  (fs.texts.filter fun file => Place.isInside file.1).map fun (place, text) =>
    ("/".intercalate place, text)

end Files

structure Session where
  files : Files
  printed : String := ""

def Session.attempt (result : Files → Option Files) : StateM Session Bool := do
  let s ← get
  match result s.files with
  | some files => set { s with files }; return true
  | none => return false

instance : Storage (StateM Session) where
  read path := return (← get).files.read path
  makeDirectory path := Session.attempt fun fs => fs.makeDirectory? path
  write path text := Session.attempt fun fs => fs.write? path text
  touch path := Session.attempt fun fs => fs.touch? path
  print text := modify fun s => { s with printed := s.printed ++ text }

end Reconcile.Command
