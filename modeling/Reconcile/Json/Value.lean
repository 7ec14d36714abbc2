import Reconcile.Json.Numeral

namespace Reconcile.Json

/-- The text of a string, or `none` if it names half of a surrogate pair without the other half. -/
abbrev Text := Option String

inductive Value where
  | null
  | bool (b : Bool)
  | number (n : Numeral)
  | string (t : Text)
  | array (items : List Value)
  | object (members : List (Text × Value))

namespace Value

mutual

def depth : Value → Nat
  | array items => depthOfAll items + 1
  | object members => depthOfMembers members + 1
  | _ => 0

def depthOfAll : List Value → Nat
  | [] => 0
  | v :: vs => max v.depth (depthOfAll vs)

def depthOfMembers : List (Text × Value) → Nat
  | [] => 0
  | (_, v) :: ms => max v.depth (depthOfMembers ms)

end

mutual

def isRepresentable : Value → Bool
  | number n => n.isFinite
  | string t => t.isSome
  | array items => allRepresentable items
  | object members => membersRepresentable members
  | _ => true

def allRepresentable : List Value → Bool
  | [] => true
  | v :: vs => v.isRepresentable && allRepresentable vs

def membersRepresentable : List (Text × Value) → Bool
  | [] => true
  | (key, v) :: ms => key.isSome && v.isRepresentable && membersRepresentable ms

end

def ofString (s : String) : Value := string (some s)

def ofNat (n : Nat) : Value := number (.natural n)

def ofOption {α : Type} (write : α → Value) : Option α → Value
  | some a => write a
  | none => null

def ofStrings (texts : List String) : Value := array (texts.map ofString)

def ofMembers (members : List (String × Value)) : Value :=
  object (members.map fun (key, v) => (some key, v))

end Value

end Reconcile.Json
