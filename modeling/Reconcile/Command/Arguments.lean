import Reconcile.Merge
import Reconcile.Settings

namespace Reconcile.Command

structure MergeRequest where
  files : List String
  leftLabel : Option String := none
  rightLabel : Option String := none
  keep : Option Keep := none
  normalize : Bool := true
  report : Option String := none
  failOnConflict : Bool := false
  output : Option String := none

def defaultSettings : String := "declmerge.json"

inductive Task where
  | merge (request : MergeRequest)
  | normalize (file : String) (output : Option String)
  | print (file : String) (output : Option String)

structure Invocation where
  task : Task
  settings : String := defaultSettings
  logDirectory : Option String := none

/-- The options that may be given at some place, by their long names: those that take a value and
those that do not. -/
structure Grammar where
  valued : List String
  flags : List String

namespace Grammar

def everywhere : Grammar := ⟨["config", "log-dir"], []⟩

def merge : Grammar :=
  ⟨["config", "log-dir", "left-label", "right-label", "keep", "report", "output"],
    ["no-normalize", "fail-on-conflict"]⟩

def single : Grammar := ⟨["config", "log-dir", "output"], []⟩

end Grammar

inductive Argument where
  | plain (text : String)
  | flag (name : String)
  | valued (name : String) (value : Option String)
  | endOfOptions

def Argument.ofString? (g : Grammar) (arg : String) : Option Argument :=
  match arg.toList with
  | ['-', '-'] => some .endOfOptions
  | '-' :: '-' :: cs =>
      let name := String.ofList (cs.takeWhile (· ≠ '='))
      match cs.dropWhile (· ≠ '=') with
      | [] =>
          if name ∈ g.flags then some (.flag name)
          else if name ∈ g.valued then some (.valued name none)
          else none
      | _ :: value => if name ∈ g.valued then some (.valued name (String.ofList value)) else none
  | '-' :: 'o' :: cs =>
      if "output" ∈ g.valued then
        match cs with
        | [] => some (.valued "output" none)
        | '=' :: value => some (.valued "output" (String.ofList value))
        | value => some (.valued "output" (String.ofList value))
      else none
  | ['-'] => some (.plain arg)
  | '-' :: _ => none
  | _ => some (.plain arg)

/-- Whether an argument can be the value of the option before it. -/
def isSeparateValue (arg : String) : Bool :=
  match arg.toList with
  | ['-'] => true
  | '-' :: _ => false
  | _ => true

structure Given where
  values : List (String × String) := []
  flags : List String := []
  plain : List String := []

namespace Given

def isConsistent (g : Given) : Bool := (g.values.map (·.1)).Nodup && g.flags.Nodup

def value? (g : Given) (name : String) : Option String := g.values.lookup name

def path? (g : Given) (name : String) : Option (Option String) :=
  match g.value? name with
  | none => some none
  | some path => if path = "" then none else some (some path)

end Given

/-- Reads the options in front of the command, and gives what follows them: the name of the command
first. -/
def readLeading (found : Given) : List String → Option (Given × List String)
  | [] => none
  | arg :: rest =>
      match Argument.ofString? .everywhere arg with
      | some (.plain _) => some (found, arg :: rest)
      | some (.valued name (some v)) =>
          readLeading { found with values := found.values ++ [(name, v)] } rest
      | some (.valued name none) =>
          match rest with
          | v :: rest =>
              if isSeparateValue v then
                readLeading { found with values := found.values ++ [(name, v)] } rest
              else none
          | [] => none
      | _ => none

def readTrailing (g : Grammar) (found : Given) : List String → Option Given
  | [] => some found
  | arg :: rest =>
      match Argument.ofString? g arg with
      | some (.plain text) => readTrailing g { found with plain := found.plain ++ [text] } rest
      | some (.flag name) => readTrailing g { found with flags := found.flags ++ [name] } rest
      | some (.valued name (some v)) =>
          readTrailing g { found with values := found.values ++ [(name, v)] } rest
      | some (.valued name none) =>
          match rest with
          | v :: rest =>
              if isSeparateValue v then
                readTrailing g { found with values := found.values ++ [(name, v)] } rest
              else none
          | [] => none
      | some .endOfOptions => some { found with plain := found.plain ++ rest }
      | none => none

def readMerge (given : Given) : Option Task := do
  guard (!given.plain.isEmpty && given.plain.all (· ≠ ""))
  return .merge {
    files := given.plain
    leftLabel := given.value? "left-label"
    rightLabel := given.value? "right-label"
    keep := ← match given.value? "keep" with
      | none => some none
      | some name => (Keep.table.lookup name).map some
    normalize := !given.flags.contains "no-normalize"
    report := ← given.path? "report"
    failOnConflict := given.flags.contains "fail-on-conflict"
    output := ← given.path? "output" }

def readSingle (given : Given) : Option (String × Option String) := do
  match given.plain with
  | [file] =>
      guard (file ≠ "")
      return (file, ← given.path? "output")
  | _ => none

def taskGrammar? (name : String) : Option Grammar :=
  if name = "merge" then some .merge
  else if name = "normalize" ∨ name = "print" then some .single
  else none

def readTask (name : String) (given : Given) : Option Task := do
  if name = "merge" then readMerge given
  else
    let (file, output) ← readSingle given
    return if name = "normalize" then .normalize file output else .print file output

/-- An option for settings or logs that is given after the command counts before one given in front
of it. -/
def Invocation.ofArguments? (args : List String) : Option Invocation := do
  let (leading, rest) ← readLeading {} args
  match rest with
  | [] => none
  | name :: rest =>
      let trailing ← readTrailing (← taskGrammar? name) {} rest
      guard (leading.isConsistent && trailing.isConsistent)
      let settings := (← trailing.path? "config").or (← leading.path? "config")
      let logDirectory := (← trailing.path? "log-dir").or (← leading.path? "log-dir")
      return {
        task := ← readTask name trailing
        settings := settings.getD defaultSettings
        logDirectory }

end Reconcile.Command
