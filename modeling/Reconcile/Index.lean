import Reconcile.Forest.Ancestry
import Reconcile.Forest.Outline

namespace Reconcile

structure Index where
  newest : List (String × Handle) := []
  deriving DecidableEq

namespace Index

def insert (i : Index) (key : String) (h : Handle) : Index := ⟨(key, h) :: i.newest⟩

def insertAll (i : Index) (keys : List String) (h : Handle) : Index :=
  keys.foldl (fun i key => i.insert key h) i

/-- Removes every registration of the given handles. -/
def forget (i : Index) (hs : List Handle) : Index :=
  ⟨i.newest.filter fun entry => !hs.contains entry.2⟩

/-- The handles under a key, the newest first. -/
def recent (i : Index) (key : String) : List Handle :=
  i.newest.filterMap fun entry => if entry.1 = key then some entry.2 else none

/-- The handles under a key in the order of their registration. -/
def get (i : Index) (key : String) : List Handle := (i.recent key).reverse

def last? (i : Index) (key : String) : Option Handle := (i.recent key).head?

def contains (i : Index) (key : String) : Bool := i.newest.any (·.1 = key)

/-- The keys in use, each one once. -/
def keys (i : Index) : List String := union [] (i.newest.map (·.1)).reverse

def size (i : Index) : Nat := i.keys.length

def isEmpty (i : Index) : Bool := i.newest.isEmpty

def register (i : Index) (f : Forest) (h : Handle) : Except Fault Index :=
  return i.insertAll (← f.keys h) h

/-- The index of all nodes that are reached from the root through children and left sides. -/
def build (f : Forest) : Except Fault Index := do
  (← f.outline Forest.root).primary.foldlM (fun i h => i.register f h) {}

end Index

end Reconcile
