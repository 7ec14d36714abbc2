import Reconcile.Declaration

namespace Reconcile

/-- Appends to a list what it does not hold yet, in the order given. -/
def union {α : Type} [DecidableEq α] (xs : List α) : List α → List α
  | [] => xs
  | y :: ys => union (if y ∈ xs then xs else xs ++ [y]) ys

def Param.sameShape (p q : Param) : Bool := p.kind = q.kind && p.name = q.name

def sameShapes : List Param → List Param → Bool
  | [], [] => true
  | p :: ps, q :: qs => p.sameShape q && sameShapes ps qs
  | _, _ => false

/-- Signatures count only where both sides have some. -/
def agreeingSignatures (xs ys : List Signature) : Bool := xs.isEmpty || ys.isEmpty || xs = ys

def Method.compatible (m n : Method) : Bool :=
  m.name = n.name && m.isSingleton = n.isSingleton && sameShapes m.params n.params &&
    agreeingSignatures m.signatures n.signatures

def Attribute.compatible (a b : Attribute) : Bool :=
  a.kind = b.kind && a.names = b.names && agreeingSignatures a.signatures b.signatures

def Leaf.compatible : Leaf → Leaf → Bool
  | .method m, .method n => m.compatible n
  | .attribute a, .attribute b => a.compatible b
  | .enumeration _, .enumeration _ => true
  | .marker _, .marker _ => false
  | l, k => l = k

def Content.compatible : Content → Content → Bool
  | .scope s, .scope t => s = t
  | .leaf l, .leaf k => l.compatible k
  | _, _ => false

def Leaf.absorb : Leaf → Leaf → Leaf
  | .method m, .method n => .method { m with signatures := union m.signatures n.signatures }
  | .attribute a, .attribute b =>
      .attribute { a with signatures := union a.signatures b.signatures }
  | .enumeration names, .enumeration more => .enumeration (union names more)
  | l, _ => l

def Content.absorb : Content → Content → Content
  | .leaf l, .leaf k => .leaf (l.absorb k)
  | c, _ => c

def Notes.addComments (n : Notes) (comments : List String) : Notes :=
  { n with comments := union n.comments comments }

end Reconcile
