import Reconcile.Forest

namespace Reconcile

/-- What can be reached from a node. -/
inductive Outline where
  | node (handle : Handle) (content : Content) (notes : Notes) (children : List Outline)
  | conflict (handle : Handle) (form : ConflictForm) (labels : Labels) (notes : Notes)
      (left right : Outline)

namespace Outline

def handle : Outline → Handle
  | node h .. | conflict h .. => h

def notes : Outline → Notes
  | node _ _ notes _ | conflict _ _ _ notes _ _ => notes

def children : Outline → List Outline
  | node _ _ _ children => children
  | conflict .. => []

mutual

def descendants : Outline → List Handle
  | node _ _ _ children => descendantsOfAll children
  | conflict _ _ _ _ left right =>
      left.handle :: left.descendants ++ right.handle :: right.descendants

def descendantsOfAll : List Outline → List Handle
  | [] => []
  | o :: os => o.handle :: o.descendants ++ descendantsOfAll os

end

mutual

/-- The handles at and below a node that count for identity: of a conflict, only the left side. -/
def primary : Outline → List Handle
  | node h _ _ children => h :: primaryOfAll children
  | conflict _ _ _ _ left _ => left.primary

def primaryOfAll : List Outline → List Handle
  | [] => []
  | o :: os => o.primary ++ primaryOfAll os

end

mutual

/-- Equality up to handles and locations. -/
def same : Outline → Outline → Bool
  | node _ content notes children, node _ content' notes' children' =>
      notes.comments = notes'.comments && content = content' && sameAll children children'
  | conflict _ form labels notes left right, conflict _ form' labels' notes' left' right' =>
      notes.comments = notes'.comments && form = form' && labels = labels' &&
        left.same left' && right.same right'
  | _, _ => false

def sameAll : List Outline → List Outline → Bool
  | [], [] => true
  | o :: os, o' :: os' => o.same o' && sameAll os os'
  | _, _ => false

end

end Outline

namespace Forest

/-- The outline of a node, if no way down from it has more than `depth` nodes, itself included. -/
def outlineWithin (f : Forest) : Nat → Handle → Except Fault Outline
  | 0, _ => throw .cyclic
  | depth + 1, h => do
      let n ← f.get h
      match n.kind with
      | .plain content =>
          return .node h content n.notes (← n.children.mapM (f.outlineWithin depth))
      | .conflict form labels left right =>
          return .conflict h form labels n.notes (← f.outlineWithin depth left)
            (← f.outlineWithin depth right)

/-- A way down that is longer than the table has nodes meets one of them twice. -/
def outline (f : Forest) (h : Handle) : Except Fault Outline := f.outlineWithin f.size h

def descendants (f : Forest) (h : Handle) : Except Fault (List Handle) :=
  return (← f.outline h).descendants

def same (f : Forest) (h : Handle) (g : Forest) (k : Handle) : Except Fault Bool :=
  return (← f.outline h).same (← g.outline k)

end Forest

end Reconcile
