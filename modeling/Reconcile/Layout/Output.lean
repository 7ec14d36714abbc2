import Reconcile.Layout.Render

namespace Reconcile

namespace Layout

/-- The lines of a whole tree, under its sigil if it has one. -/
def treeLines (style : Style) (o : Outline) : List Line :=
  (match style.sigil with
    | some sigil =>
        .code 0 ("# typed: " ++ sigil) :: if o.children.isEmpty then [] else [.blank]
    | none => []) ++
    lines style 0 false o

end Layout

namespace Forest

def render (f : Forest) (style : Style) : Except Fault String :=
  return Layout.text style (Layout.treeLines style (← f.outline root))

/-- The text of a single node and what is below it, at the left edge. -/
def renderNode (f : Forest) (h : Handle) (style : Style) : Except Fault String :=
  return Layout.text style (Layout.lines style 0 false (← f.outline h))

end Forest

namespace Layout

inductive WriteError where
  | limitReached
  deriving DecidableEq

def WriteError.message : WriteError → String
  | limitReached => "failed to write rendered tree: limit reached"

/-- Writes a text to a medium that takes a limited number of bytes: it arrives whole or not at all.
The result is the number of bytes written. -/
def writeWithin (limit : Nat) (text : String) : Except WriteError Nat :=
  if text.utf8ByteSize ≤ limit then .ok text.utf8ByteSize else .error .limitReached

end Layout

end Reconcile
