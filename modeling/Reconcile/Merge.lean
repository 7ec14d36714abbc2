import Reconcile.Forest.Ancestry
import Reconcile.Forest.Graft
import Reconcile.Index
import Reconcile.Merge.Event

namespace Reconcile

/-- Which of two versions stays when they do not agree. -/
inductive Keep where
  | both
  | left
  | right
  deriving DecidableEq

namespace Merge

structure Options where
  labels : Labels := ⟨"left", "right"⟩
  keep : Keep := .both
  deriving DecidableEq

/-- Two declarations of the output that share a key and do not agree. -/
structure Conflict where
  key : String
  left : Handle
  right : Handle
  labels : Labels
  deriving DecidableEq

def Conflict.message (c : Conflict) : String :=
  "conflicting definitions for `" ++ c.key ++ "` (" ++ c.labels.left ++ " vs " ++ c.labels.right ++
    ")"

/-- A merge in progress: the output with its index, the output scopes that the trees read so far
have entered and not left, the innermost first, and the conflicts in the order of detection. -/
structure State where
  forest : Forest := .empty
  index : Index := {}
  entered : List Handle := []
  conflicts : List Conflict := []

namespace State

def current (s : State) : Handle := s.entered.head?.getD Forest.root

def scopeName (s : State) : Except Fault String := do
  if (← s.forest.kind s.current).isScope then s.forest.qualifiedName s.current else return ""

def record (s : State) (o : Options) (key : String) (left right : Handle) : State :=
  { s with conflicts := s.conflicts ++ [⟨key, left, right, o.labels⟩] }

def place (s : State) (content : Content) (notes : Notes) (keys : List String) :
    Except Fault (State × Handle) := do
  let (forest, h) ← s.forest.append s.current content notes
  return ({ s with forest, index := s.index.insertAll keys h }, h)

def scopeUnder? (s : State) (key : String) : Except Fault (Option Handle) :=
  return (← s.forest.kinds (s.index.recent key)).find? (·.2.isScope) |>.map (·.1)

/-- The first of some keys that is in use, with the newest declaration under it. -/
def previous? (s : State) (keys : List String) : Option (String × Handle) :=
  keys.findSome? fun key => (s.index.last? key).map (key, ·)

/-- Sets a header against the one in the output. A scope takes part in one conflict of headers at
most; a further header is only recorded. -/
def contestHeader (s : State) (o : Options) (key : String) (previous : Handle) (scope : Scope)
    (notes : Notes) : Except Fault State := do
  let (forest, header) := s.forest.create (.plain (.scope scope)) notes
  let forest ←
    if (← forest.anchor previous) = previous then
      pure (← forest.wrapHeaders previous header o.labels).1
    else pure forest
  return { s with forest }.record o key previous header

/-- Brings a scope into the output, and gives the output scope that its body goes to. -/
def placeScope (s : State) (o : Options) (scope : Scope) (notes : Notes) :
    Except Fault (State × Handle) := do
  let key := scope.qualify (← s.scopeName)
  match ← s.scopeUnder? key with
  | none => s.place (.scope scope) notes [key]
  | some previous =>
      if (← s.forest.kind previous).compatible (.plain (.scope scope)) then
        return ({ s with forest := ← s.forest.addComments previous notes.comments }, previous)
      else
        match o.keep with
        | .left => return (s, previous)
        | .right =>
            let forest ← s.forest.update previous fun n =>
              { n with
                kind := .plain (.scope scope)
                notes := { n.notes with comments := notes.comments } }
            return ({ s with forest }, previous)
        | .both => return (← s.contestHeader o key previous scope notes, previous)

/-- Puts a leaf where a scope is. The body of the scope goes with it, and so does the conflict of
headers that the scope takes part in. -/
def supplantScope (s : State) (previous : Handle) (leaf : Leaf) (notes : Notes)
    (keys : List String) : Except Fault State := do
  let anchor ← s.forest.anchor previous
  let index := s.index.forget (anchor :: (← s.forest.descendants anchor))
  let (forest, h) := s.forest.create (.plain (.leaf leaf)) notes
  return { s with forest := ← forest.replace anchor h, index := index.insertAll keys h }

/-- Sets a leaf against the declaration in the output. The leaf joins the conflict of declarations
that the declaration is directly in, or opens one around it. -/
def contestLeaf (s : State) (o : Options) (key : String) (previous : Handle) (leaf : Leaf)
    (notes : Notes) : Except Fault State := do
  let (forest, h) := s.forest.create (.plain (.leaf leaf)) notes
  let (forest, conflict) ←
    match ← forest.enclosingConflict previous with
    | some conflict => pure (forest, conflict)
    | none => forest.wrapDeclarations (← forest.anchor previous) o.labels
  let forest ← forest.attach (← forest.rightSide conflict) h
  return { s with forest }.record o key previous h

def placeLeaf (s : State) (o : Options) (leaf : Leaf) (notes : Notes) : Except Fault State := do
  let keys := leaf.keys (← s.scopeName)
  match s.previous? keys with
  | none => return (← s.place (.leaf leaf) notes keys).1
  | some (key, previous) =>
      let kind ← s.forest.kind previous
      if kind.compatible (.plain (.leaf leaf)) then
        return { s with forest := ← s.forest.absorb previous (.plain (.leaf leaf)) notes.comments }
      else
        match o.keep with
        | .left => return s
        | .right =>
            if kind.isContainer then s.supplantScope previous leaf notes keys
            else
              let forest ← s.forest.update previous fun n =>
                { n with kind := .plain (.leaf leaf), notes }
              return { s with forest }
        | .both => s.contestLeaf o key previous leaf notes

/-- Conflicts of earlier merges are taken over as they are. -/
def carry (s : State) (conflict : Outline) : Except Fault State := do
  let (forest, h) ← s.forest.graft conflict
  return { s with forest := ← forest.attach s.current h }

def step (o : Options) (s : State) : Event → Except Fault State
  | .enter scope notes => do
      let (s, h) ← s.placeScope o scope notes
      return { s with entered := h :: s.entered }
  | .leave => return { s with entered := s.entered.tail }
  | .declare leaf notes => s.placeLeaf o leaf notes
  | .remark comments => return { s with forest := ← s.forest.addComments s.current comments }
  | .carry conflict => s.carry conflict

def run (o : Options) (s : State) (events : List Event) : Except Fault State :=
  events.foldlM (step o) s

end State

end Merge

end Reconcile
