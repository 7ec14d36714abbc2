import Reconcile.Forest.Edit
import Reconcile.Forest.Visit

namespace Reconcile

/-- Sorts a list so that elements of which neither precedes the other keep their order. -/
def insertSorted {α : Type} (le : α → α → Bool) (a : α) : List α → List α
  | [] => [a]
  | b :: bs => if le a b then a :: b :: bs else b :: insertSorted le a bs

def sortBy {α : Type} (le : α → α → Bool) : List α → List α
  | [] => []
  | a :: as => insertSorted le a (sortBy le as)

def textLe : List Char → List Char → Bool
  | [], _ => true
  | _ :: _, [] => false
  | c :: cs, d :: ds => c < d || (c = d && textLe cs ds)

structure SortKey where
  rank : Nat × Nat
  name : Option String
  deriving DecidableEq

namespace SortKey

def rankLt (r s : Nat × Nat) : Bool := r.1 < s.1 || (r.1 = s.1 && r.2 < s.2)

def nameLe : Option String → Option String → Bool
  | none, _ => true
  | some _, none => false
  | some a, some b => textLe a.toList b.toList

def le (k l : SortKey) : Bool :=
  rankLt k.rank l.rank || (k.rank = l.rank && nameLe k.name l.name)

end SortKey

/-- The name that a declaration is sorted by. Where the order of declarations has a meaning they
have none. -/
def Content.sortName? : Content → Option String
  | .scope s => s.name?
  | .leaf (.constant name _) => some name
  | .leaf (.method m) => some m.name
  | .leaf (.attribute a) => a.names.head?
  | .leaf (.helper name) => some name
  | _ => none

namespace Forest

/-- A conflict of headers is sorted by the name of its left side. -/
def sortKey (f : Forest) (h : Handle) : Except Fault SortKey := do
  let kind ← f.kind h
  match kind with
  | .plain c => return ⟨kind.rank, c.sortName?⟩
  | .conflict .headers _ left _ => return ⟨kind.rank, (← f.kind left).name?⟩
  | .conflict .declarations .. => return ⟨kind.rank, none⟩

def isMarker (f : Forest) (h : Handle) : Except Fault Bool :=
  return match ← f.kind h with
    | .plain (.leaf (.marker _)) => true
    | _ => false

def sortIn : Change := fun f h children => do
  if (← children.mapM f.isMarker).any id then return f
  let keyed ← children.mapM fun c => return (← f.sortKey c, c)
  f.reorder h ((sortBy (fun a b => a.1.le b.1) keyed).map (·.2))

end Forest

end Reconcile
