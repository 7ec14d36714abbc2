import Reconcile.Json.Value

namespace Reconcile.Json

def hexDigit (n : Nat) : Char :=
  if n < 10 then Char.ofNat ('0'.toNat + n) else Char.ofNat ('a'.toNat + (n - 10))

/-- Only quotes, backslashes and control characters are escaped. -/
def escape (c : Char) : List Char :=
  if c = '"' then ['\\', '"']
  else if c = '\\' then ['\\', '\\']
  else if c = '\n' then ['\\', 'n']
  else if c = '\r' then ['\\', 'r']
  else if c = '\t' then ['\\', 't']
  else if c.toNat = 0x08 then ['\\', 'b']
  else if c.toNat = 0x0C then ['\\', 'f']
  else if c.toNat < 0x20 then
    ['\\', 'u', '0', '0', hexDigit (c.toNat / 16), hexDigit (c.toNat % 16)]
  else [c]

/-- A text that is none has no characters of its own to write; any half of a surrogate pair stands
for it. -/
def quoted : Text → String
  | some s => "\"" ++ String.ofList (s.toList.flatMap escape) ++ "\""
  | none => "\"\\ud800\""

def lineBreak (level : Nat) : String := "\n".pushn ' ' (2 * level)

namespace Value

mutual

def compact : Value → String
  | null => "null"
  | bool b => if b then "true" else "false"
  | number n => n.text
  | string t => quoted t
  | array items => "[" ++ compactItems items ++ "]"
  | object members => "\x7b" ++ compactMembers members ++ "\x7d"

def compactItems : List Value → String
  | [] => ""
  | [v] => v.compact
  | v :: vs => v.compact ++ "," ++ compactItems vs

def compactMembers : List (Text × Value) → String
  | [] => ""
  | [(key, v)] => quoted key ++ ":" ++ v.compact
  | (key, v) :: ms => quoted key ++ ":" ++ v.compact ++ "," ++ compactMembers ms

end

mutual

def prettyAt (level : Nat) : Value → String
  | array (v :: vs) =>
      "[" ++ lineBreak (level + 1) ++ prettyItems (level + 1) (v :: vs) ++ lineBreak level ++ "]"
  | object (m :: ms) =>
      "\x7b" ++ lineBreak (level + 1) ++ prettyMembers (level + 1) (m :: ms) ++ lineBreak level ++
        "\x7d"
  | v => v.compact

def prettyItems (level : Nat) : List Value → String
  | [] => ""
  | [v] => v.prettyAt level
  | v :: vs => v.prettyAt level ++ "," ++ lineBreak level ++ prettyItems level vs

def prettyMembers (level : Nat) : List (Text × Value) → String
  | [] => ""
  | [(key, v)] => quoted key ++ ": " ++ v.prettyAt level
  | (key, v) :: ms =>
      quoted key ++ ": " ++ v.prettyAt level ++ "," ++ lineBreak level ++ prettyMembers level ms

end

def pretty (v : Value) : String := v.prettyAt 0

end Value

end Reconcile.Json
