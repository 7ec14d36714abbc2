import Reconcile.Forest

namespace Reconcile.Forest

def create (f : Forest) (kind : Kind) (notes : Notes) : Forest × Handle :=
  (⟨f.nodes.push { kind, notes }⟩, f.nodes.size)

def detach (f : Forest) (child : Handle) : Except Fault Forest := do
  match (← f.get child).parent with
  | none => return f
  | some p =>
      (f.modify child fun n => { n with parent := none }).update p fun n =>
        { n with children := n.children.filter (· != child) }

/-- Puts a child in front of the child at `index`, or at the end if there are fewer children once
the child has left its former place. -/
def insert (f : Forest) (parent : Handle) (index : Nat) (child : Handle) : Except Fault Forest := do
  unless (← f.kind parent).isContainer do throw (.cannotHoldChildren parent)
  let f ← f.detach child
  let f ← f.update parent fun n =>
    { n with children := n.children.take index ++ child :: n.children.drop index }
  f.update child fun n => { n with parent := some parent }

def attach (f : Forest) (parent child : Handle) : Except Fault Forest := do
  f.insert parent (← f.children parent).length child

def attachAll (f : Forest) (parent : Handle) (children : List Handle) : Except Fault Forest :=
  children.foldlM (fun f child => f.attach parent child) f

def append (f : Forest) (parent : Handle) (content : Content) (notes : Notes) :
    Except Fault (Forest × Handle) := do
  let (f, h) := f.create (.plain content) notes
  return (← f.attach parent h, h)

def gather (parent : Handle) (content : Content) (f : Forest) (members : List Handle) :
    Except Fault Forest := do
  if members.isEmpty then return f
  let (f, h) ← f.append parent content {}
  f.attachAll h members

/-- Puts one node where another one is, and detaches that one. -/
def replace (f : Forest) (old new : Handle) : Except Fault Forest := do
  match (← f.get old).parent with
  | none => throw (.noParent old)
  | some parent =>
      match ← f.position old with
      | none => throw (.notAChild old parent)
      | some index => (← f.detach old).insert parent index new

def reorder (f : Forest) (h : Handle) (order : List Handle) : Except Fault Forest :=
  f.update h fun n => { n with children := order }

/-- Makes a node belong to a conflict without listing it among children. -/
def adopt (f : Forest) (owner side : Handle) : Except Fault Forest := do
  (← f.detach side).update side fun n => { n with parent := some owner }

/-- Puts a conflict of declarations where a node is, with that node alone on the left. -/
def wrapDeclarations (f : Forest) (h : Handle) (labels : Labels) :
    Except Fault (Forest × Handle) := do
  let (f, left) := f.create (.plain .tree) {}
  let (f, right) := f.create (.plain .tree) {}
  let (f, conflict) := f.create (.conflict .declarations labels left right) {}
  let f ← f.adopt conflict left
  let f ← f.adopt conflict right
  let f ← f.replace h conflict
  return (← f.attach left h, conflict)

/-- Puts a conflict of headers where a scope is, with another scope on the right. -/
def wrapHeaders (f : Forest) (scope header : Handle) (labels : Labels) :
    Except Fault (Forest × Handle) := do
  let (f, conflict) := f.create (.conflict .headers labels scope header) {}
  let f ← f.replace scope conflict
  let f ← f.adopt conflict scope
  return (← f.adopt conflict header, conflict)

def setKind (f : Forest) (h : Handle) (kind : Kind) : Except Fault Forest :=
  f.update h fun n => { n with kind }

def setLocation (f : Forest) (h : Handle) (location : Location) : Except Fault Forest :=
  f.update h fun n => { n with notes := { n.notes with location } }

def addComment (f : Forest) (h : Handle) (comment : String) : Except Fault Forest :=
  f.update h fun n => { n with notes := { n.notes with comments := n.notes.comments ++ [comment] } }

def addComments (f : Forest) (h : Handle) (comments : List String) : Except Fault Forest :=
  f.update h fun n => { n with notes := n.notes.addComments comments }

/-- Unites a node with another one: contents that allow it, and comments. -/
def absorb (f : Forest) (h : Handle) (kind : Kind) (comments : List String) : Except Fault Forest :=
  f.update h fun n =>
    { n with kind := n.kind.absorb kind, notes := n.notes.addComments comments }

end Reconcile.Forest
