import Reconcile.Declaration.Category
import Reconcile.Declaration.Compatibility
import Reconcile.Declaration.Identity

namespace Reconcile

abbrev Handle := Nat

structure Labels where
  left : String
  right : String
  deriving DecidableEq

inductive ConflictForm where
  /-- Two trees of declarations that exclude each other. -/
  | declarations
  /-- Two scopes that differ in their headers and share the body of the left one. -/
  | headers
  deriving DecidableEq

inductive Kind where
  | plain (content : Content)
  | conflict (form : ConflictForm) (labels : Labels) (left right : Handle)
  deriving DecidableEq

namespace Kind

def isContainer : Kind → Bool
  | plain c => c.isContainer
  | conflict .. => false

def scope? : Kind → Option Scope
  | plain c => c.scope?
  | conflict .. => none

def isScope (k : Kind) : Bool := k.scope?.isSome

def name? : Kind → Option String
  | plain c => c.name?
  | conflict .. => none

def isVisibilityGroup : Kind → Bool
  | plain (.visibilityGroup _) => true
  | _ => false

def isHeaderConflict : Kind → Bool
  | conflict .headers .. => true
  | _ => false

def keys (outer : String) : Kind → List String
  | plain c => c.keys outer
  | conflict .. => []

def compatible : Kind → Kind → Bool
  | plain c, plain d => c.compatible d
  | _, _ => false

def absorb : Kind → Kind → Kind
  | plain c, plain d => plain (c.absorb d)
  | k, _ => k

def category : Kind → Category
  | plain c => c.category
  | conflict .. => .scopesAndConstants

def rank : Kind → Nat × Nat
  | plain c => c.rank
  | conflict .headers .. => (Category.scopesAndConstants.rank, 0)
  | conflict .declarations .. => (Category.scopesAndConstants.rank + 1, 0)

end Kind

structure Node where
  kind : Kind
  notes : Notes := {}
  parent : Option Handle := none
  children : List Handle := []
  deriving DecidableEq

inductive Fault where
  | unknownHandle
  | cannotHoldChildren (node : Handle)
  | noParent (node : Handle)
  | notAChild (node parent : Handle)
  | notAConflict (node : Handle)
  | cyclic
  deriving DecidableEq

namespace Fault

def message : Fault → String
  | unknownHandle => "index out of bounds"
  | cannotHoldChildren node => s!"node {node} cannot hold children"
  | noParent node => s!"node {node} has no parent to be replaced in"
  | notAChild node parent => s!"node {node} is not a child of node {parent}"
  | notAConflict node => s!"node {node} is not a conflict"
  | cyclic => "nodes contain each other"

end Fault

/-- A table of nodes, addressed by handles that are given out in order and never reused. Handle `0` is
the root. A side of a conflict has the conflict as its parent without being listed among its children. -/
structure Forest where
  nodes : Array Node
  deriving DecidableEq

namespace Forest

def root : Handle := 0

def empty : Forest := ⟨#[{ kind := .plain .tree }]⟩

def size (f : Forest) : Nat := f.nodes.size

def get (f : Forest) (h : Handle) : Except Fault Node :=
  match f.nodes[h]? with
  | some n => .ok n
  | none => .error .unknownHandle

def kind (f : Forest) (h : Handle) : Except Fault Kind := return (← f.get h).kind

def children (f : Forest) (h : Handle) : Except Fault (List Handle) := return (← f.get h).children

def parent (f : Forest) (h : Handle) : Except Fault (Option Handle) := return (← f.get h).parent

def kinds (f : Forest) (hs : List Handle) : Except Fault (List (Handle × Kind)) :=
  hs.mapM fun h => return (h, ← f.kind h)

def modify (f : Forest) (h : Handle) (g : Node → Node) : Forest :=
  match f.nodes[h]? with
  | some n => ⟨f.nodes.setIfInBounds h (g n)⟩
  | none => f

def update (f : Forest) (h : Handle) (g : Node → Node) : Except Fault Forest := do
  let _ ← f.get h
  return f.modify h g

def position (f : Forest) (h : Handle) : Except Fault (Option Nat) := do
  match (← f.get h).parent with
  | none => return none
  | some p => return (← f.children p).idxOf? h

/-- The containers that a node opens: itself, or both sides of a conflict. -/
def containersAt (f : Forest) (h : Handle) : Except Fault (List Handle) := do
  match ← f.kind h with
  | .plain c => return if c.isContainer then [h] else []
  | .conflict _ _ left right => return [left, right]

def rightSide (f : Forest) (h : Handle) : Except Fault Handle := do
  match ← f.kind h with
  | .conflict _ _ _ right => return right
  | .plain _ => throw (.notAConflict h)

end Forest

end Reconcile
