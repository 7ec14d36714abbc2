import Reconcile.Forest

namespace Reconcile.Forest

/-- Changes one container. The children are those that it had when the visit came to it. -/
abbrev Change := Forest → Handle → List Handle → Except Fault Forest

def visitEach (visit : Forest → Handle → Except Fault Forest) (f : Forest)
    (children : List Handle) : Except Fault Forest :=
  children.foldlM (fun f child => do (← f.containersAt child).foldlM visit f) f

/-- Changes a container after those below it. -/
def upwardWithin (change : Change) : Nat → Forest → Handle → Except Fault Forest
  | 0, _, _ => throw .cyclic
  | depth + 1, f, h => do
      let children ← f.children h
      change (← visitEach (upwardWithin change depth) f children) h children

/-- Changes a container before those below it, which are the ones that it opens after the change. -/
def downwardWithin (change : Change) : Nat → Forest → Handle → Except Fault Forest
  | 0, _, _ => throw .cyclic
  | depth + 1, f, h => do
      let f ← change f h (← f.children h)
      visitEach (downwardWithin change depth) f (← f.children h)

/-- The depth of a visit. A way down meets each node once, and a change may put one new container
below each of them. -/
def visitDepth (f : Forest) : Nat := 2 * f.size

def upward (f : Forest) (change : Change) : Except Fault Forest :=
  upwardWithin change f.visitDepth f root

def downward (f : Forest) (change : Change) : Except Fault Forest :=
  downwardWithin change f.visitDepth f root

end Reconcile.Forest
