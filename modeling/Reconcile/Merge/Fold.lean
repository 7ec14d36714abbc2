import Reconcile.Forest.Visit
import Reconcile.Merge

namespace Reconcile

namespace Forest

def moveChildren (f : Forest) (source target : Handle) : Except Fault Forest := do
  f.attachAll target (← f.children source)

/-- Where a run of conflicts stands: the sides of its first conflict, if the last child was a
conflict of declarations. -/
abbrev Run := Option (Handle × Handle)

def extendRun (state : Forest × Run) (child : Handle) : Except Fault (Forest × Run) := do
  let (f, run) := state
  match ← f.kind child, run with
  | .conflict .declarations _ left right, none => return (f, some (left, right))
  | .conflict .declarations _ left right, some (left', right') =>
      let f ← f.moveChildren left left'
      let f ← f.moveChildren right right'
      return (← f.detach child, run)
  | _, _ => return (f, none)

def coalesceIn : Change := fun f _ children =>
  return (← children.foldlM extendRun (f, none)).1

/-- Folds the runs in all containers, from the root down. -/
def coalesce (f : Forest) : Except Fault Forest := f.downward coalesceIn

end Forest

namespace Merge

structure Output where
  forest : Forest
  conflicts : List Conflict

def State.merge (o : Options) (s : State) (tree : Forest) : Except Fault State := do
  s.run o (← tree.outline Forest.root).events

def mergeAll (o : Options) (trees : List Forest) : Except Fault Output := do
  let s ← trees.foldlM (State.merge o) {}
  return { forest := ← s.forest.coalesce, conflicts := s.conflicts }

end Merge

end Reconcile
