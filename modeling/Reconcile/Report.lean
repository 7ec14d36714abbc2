import Reconcile.Json.Writer
import Reconcile.Layout.Output
import Reconcile.Merge.Fold

namespace Reconcile

open Json (Value)

structure Report where
  key : String
  labels : Labels
  left : String
  right : String
  deriving DecidableEq

namespace Report

def ofConflict (style : Style) (f : Forest) (c : Merge.Conflict) : Except Fault Report :=
  return {
    key := c.key
    labels := c.labels
    left := ← f.renderNode c.left style
    right := ← f.renderNode c.right style }

def ofOutput (style : Style) (o : Merge.Output) : Except Fault (List Report) :=
  o.conflicts.mapM (ofConflict style o.forest)

def write (r : Report) : Value :=
  .ofMembers
    [("key", .ofString r.key),
      ("left_label", .ofString r.labels.left),
      ("right_label", .ofString r.labels.right),
      ("left", .ofString r.left),
      ("right", .ofString r.right)]

def text (reports : List Report) : String := (Value.array (reports.map write)).pretty

end Report

end Reconcile
