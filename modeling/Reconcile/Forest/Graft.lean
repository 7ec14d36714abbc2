import Reconcile.Forest.Edit
import Reconcile.Forest.Outline

namespace Reconcile.Forest

mutual

def graft (f : Forest) : Outline → Except Fault (Forest × Handle)
  | .node _ content notes children => do
      let (f, h) := f.create (.plain content) notes
      return (← f.graftAll h children, h)
  | .conflict _ form labels notes left right => do
      let (f, left) ← f.graft left
      let (f, right) ← f.graft right
      let (f, h) := f.create (.conflict form labels left right) notes
      let f ← f.adopt h left
      return (← f.adopt h right, h)

def graftAll (f : Forest) (parent : Handle) : List Outline → Except Fault Forest
  | [] => return f
  | o :: os => do
      let (f, h) ← f.graft o
      (← f.attach parent h).graftAll parent os

end

/-- Copies a node without its children, but a conflict with both of its sides. -/
def graftNode (f : Forest) : Outline → Except Fault (Forest × Handle)
  | .node _ content notes _ => return f.create (.plain content) notes
  | o => f.graft o

end Reconcile.Forest
