import Reconcile.Command.Arguments
import Reconcile.Command.Path
import Reconcile.Command.Storage
import Reconcile.Document.Build
import Reconcile.Normal
import Reconcile.Report

namespace Reconcile.Command

inductive Failure where
  | badSettings (path : String)
  | unreadable (path : String) (cause : ReadFailure)
  | document (error : Document.Error)
  | unwritable (path : String)
  | noLog (path : String)
  | conflicts (count : Nat)
  | fault (fault : Fault)

def Failure.message : Failure → String
  | badSettings path => "malformed settings in " ++ path
  | unreadable path cause => "failed to read " ++ path ++ ": " ++ cause.message
  | document error => error.message
  | unwritable path => "failed to write " ++ path
  | noLog path => "failed to open " ++ path
  | conflicts count => toString count ++ " conflict(s) found"
  | fault f => f.message

/-- A log that cannot be opened aborts the program. -/
def Failure.exitCode : Failure → Nat
  | noLog _ => 101
  | _ => 1

section

variable {m : Type → Type} [Monad m] [Storage m]

/-- A settings file that is not there says nothing. -/
def loadSettings (path : String) : ExceptT Failure m Settings := do
  match ← (Storage.read path : m _) with
  | .ok text =>
      match Settings.parse? text with
      | some settings => return settings
      | none => throw (.badSettings path)
  | .error cause => if cause.isThere then throw (.badSettings path) else return {}

def prepare (path : String) : ExceptT Failure m Unit := do
  match parent? path with
  | none => return
  | some directory =>
      unless ← (Storage.makeDirectory directory : m _) do throw (.unwritable path)

def save (path text : String) : ExceptT Failure m Unit := do
  prepare path
  unless ← (Storage.write path text : m _) do throw (.unwritable path)

def logName : String := "declmerge.log"

def openLog (directory : Option String) : ExceptT Failure m Unit := do
  match directory with
  | none => return
  | some directory =>
      unless ← (Storage.makeDirectory directory : m _) do throw (.unwritable directory)
      let path := join directory logName
      unless ← (Storage.touch path : m _) do throw (.noLog path)

def loadTree (path : String) : ExceptT Failure m Forest := do
  match ← (Storage.read path : m _) with
  | .error cause => throw (.unreadable path cause)
  | .ok text =>
      match Document.load text with
      | .ok tree => return tree
      | .error e => throw (.document e)

def orFault {α : Type} : Except Fault α → ExceptT Failure m α
  | .ok a => return a
  | .error f => throw (.fault f)

def emit (style : Style) (tree : Forest) (output : Option String) : ExceptT Failure m Unit := do
  let text ← orFault (tree.render style)
  match output with
  | some path => save path text
  | none => (Storage.print text : m _)

/-- Arguments count before settings. -/
def MergeRequest.options (r : MergeRequest) (s : Settings) : Merge.Options where
  labels := {
    left := r.leftLabel.getD s.merge.labels.left
    right := r.rightLabel.getD s.merge.labels.right }
  keep := r.keep.getD s.merge.keep

/-- Reports show the conflicts as they are before normalization moves them around. -/
def runMerge (settings : Settings) (r : MergeRequest) : ExceptT Failure m Unit := do
  let trees ← r.files.mapM loadTree
  let merged ← orFault (Merge.mergeAll (r.options settings) trees)
  let reports ← orFault (Report.ofOutput settings.style merged)
  match r.report with
  | some path => save path (Report.text reports)
  | none => pure ()
  let tree ←
    if settings.normalize && r.normalize then orFault merged.forest.normalize
    else pure merged.forest
  emit settings.style tree r.output
  if r.failOnConflict && !merged.conflicts.isEmpty then
    throw (.conflicts merged.conflicts.length)

def runTask (settings : Settings) : Task → ExceptT Failure m Unit
  | .merge request => runMerge settings request
  | .normalize file output => do
      let tree ← loadTree file
      emit settings.style (← orFault tree.normalize) output
  | .print file output => do
      emit settings.style (← loadTree file) output

def run (i : Invocation) : ExceptT Failure m Unit := do
  let settings ← loadSettings i.settings
  openLog (i.logDirectory.or settings.logDirectory)
  runTask settings i.task

end

inductive Outcome where
  | success
  | usage
  | failure (f : Failure)

def Outcome.exitCode : Outcome → Nat
  | success => 0
  | usage => 2
  | failure f => f.exitCode

def execute {m : Type → Type} [Monad m] [Storage m] (args : List String) : m Outcome := do
  match Invocation.ofArguments? args with
  | none => return .usage
  | some i =>
      match ← (run i : ExceptT Failure m Unit).run with
      | .ok () => return .success
      | .error f => return .failure f

end Reconcile.Command
