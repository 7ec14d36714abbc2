import Reconcile.Forest

namespace Reconcile.Forest

def ancestorsWithin (f : Forest) : Nat → Handle → Except Fault (List Handle)
  | 0, _ => throw .cyclic
  | length + 1, h => do
      match (← f.get h).parent with
      | none => return []
      | some p => return p :: (← f.ancestorsWithin length p)

/-- The parent of a node, its parent, and so on up to a node that has none. -/
def ancestors (f : Forest) (h : Handle) : Except Fault (List Handle) := f.ancestorsWithin f.size h

def enclosingScopes (f : Forest) (h : Handle) : Except Fault (List (Handle × Scope)) :=
  return (← f.kinds (← f.ancestors h)).filterMap fun p => p.2.scope?.map (p.1, ·)

def parentScope (f : Forest) (h : Handle) : Except Fault (Option Handle) :=
  return (← f.enclosingScopes h).head?.map (·.1)

def enclosingName (f : Forest) (h : Handle) : Except Fault String :=
  return (← f.enclosingScopes h).foldr (fun s outer => s.2.qualify outer) ""

/-- The qualified name of a scope, and of the scope around any other node. -/
def qualifiedName (f : Forest) (h : Handle) : Except Fault String := do
  let outer ← f.enclosingName h
  match (← f.kind h).scope? with
  | some s => return s.qualify outer
  | none => return outer

def keys (f : Forest) (h : Handle) : Except Fault (List String) :=
  return (← f.kind h).keys (← f.enclosingName h)

/-- The node that stands for a declaration among its siblings: the conflict of headers that it is a
side of, or itself. -/
def anchor (f : Forest) (h : Handle) : Except Fault Handle := do
  match ← f.parent h with
  | none => return h
  | some p => return if (← f.kind p).isHeaderConflict then p else h

/-- The conflict of declarations that has a node directly on one of its sides. -/
def enclosingConflict (f : Forest) (h : Handle) : Except Fault (Option Handle) := do
  match ← f.parent h with
  | none => return none
  | some side =>
      match ← f.parent side with
      | none => return none
      | some owner =>
          match ← f.kind owner with
          | .conflict .declarations _ left right =>
              return if side = left ∨ side = right then some owner else none
          | _ => return none

/-- Whether a node is a visibility group or is in one below the nearest scope. -/
def inVisibilityGroup (f : Forest) (h : Handle) : Except Fault Bool := do
  let around ← f.kinds (h :: (← f.ancestors h))
  return (around.takeWhile fun p => !p.2.isScope).any fun p => p.2.isVisibilityGroup

end Reconcile.Forest
