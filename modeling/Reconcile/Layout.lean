import Reconcile.Declaration

namespace Reconcile

structure Style where
  indentWidth : UInt64 := 2
  showLocations : Bool := false
  sigil : Option String := none
  deriving DecidableEq

namespace Layout

inductive Line where
  | code (level : Nat) (text : String)
  | marker (text : String)
  | blank
  deriving DecidableEq

def Line.text (style : Style) : Line → String
  | code level text => "".pushn ' ' (level * style.indentWidth.toNat) ++ text
  | marker text => text
  | blank => ""

def text (style : Style) (lines : List Line) : String :=
  String.join (lines.map fun line => line.text style ++ "\n")

/-- Cuts a text at its line breaks, which are a line feed or a carriage return with a line feed. A
break at the end starts no further line. -/
def splitLines : List Char → List (List Char)
  | [] => []
  | '\n' :: cs => [] :: splitLines cs
  | '\r' :: '\n' :: cs => [] :: splitLines cs
  | c :: cs =>
      match splitLines cs with
      | [] => [[c]]
      | line :: lines => (c :: line) :: lines

end Layout

end Reconcile
