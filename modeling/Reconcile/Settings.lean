import Reconcile.Json.Parser
import Reconcile.Json.Record
import Reconcile.Json.Writer
import Reconcile.Layout
import Reconcile.Merge

namespace Reconcile

open Json (Value)

namespace Keep

def all : List Keep := [both, left, right]

def name : Keep → String
  | both => "none"
  | left => "left"
  | right => "right"

def table : List (String × Keep) := all.map fun k => (k.name, k)

end Keep

structure Settings where
  merge : Merge.Options := {}
  normalize : Bool := true
  style : Style := {}
  logDirectory : Option String := none
  deriving DecidableEq

namespace Settings

def readMerge? (v : Value) : Option Merge.Options := do
  let r ← v.record? ["left_label", "right_label", "keep"]
  return {
    labels := {
      left := ← r.withDefault "left_label" "left" Value.text?
      right := ← r.withDefault "right_label" "right" Value.text? }
    keep := ← r.withDefault "keep" .both (Value.choice? Value.isNull Keep.table) }

def readNormalize? (v : Value) : Option Bool := do
  (← v.record? ["enabled"]).withDefault "enabled" true Value.bool?

def readStyle? (v : Value) : Option Style := do
  let r ← v.record? ["indent_width", "print_locs", "typed_sigil"]
  return {
    indentWidth := ← r.withDefault "indent_width" 2 Value.word?
    showLocations := ← r.withDefault "print_locs" false Value.bool?
    sigil := ← r.optional "typed_sigil" Value.text? }

def readLogging? (v : Value) : Option (Option String) := do
  (← v.record? ["dir"]).optional "dir" Value.text?

def read? (v : Value) : Option Settings := do
  let r ← v.record? ["merge", "normalize", "printer", "logging"]
  return {
    merge := ← r.withDefault "merge" {} readMerge?
    normalize := ← r.withDefault "normalize" true readNormalize?
    style := ← r.withDefault "printer" {} readStyle?
    logDirectory := ← r.withDefault "logging" none readLogging? }

def parse? (text : String) : Option Settings := do
  read? (← Json.parse? text)

def write (s : Settings) : Value :=
  .ofMembers
    [("merge", .ofMembers
        [("left_label", .ofString s.merge.labels.left),
          ("right_label", .ofString s.merge.labels.right),
          ("keep", .ofString s.merge.keep.name)]),
      ("normalize", .ofMembers [("enabled", .bool s.normalize)]),
      ("printer", .ofMembers
        [("indent_width", .ofNat s.style.indentWidth.toNat),
          ("print_locs", .bool s.style.showLocations),
          ("typed_sigil", .ofOption .ofString s.style.sigil)]),
      ("logging", .ofMembers [("dir", .ofOption .ofString s.logDirectory)])]

def text (s : Settings) : String := s.write.pretty

end Settings

end Reconcile
