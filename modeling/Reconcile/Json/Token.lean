import Reconcile.Json.Value

namespace Reconcile.Json

inductive Token where
  | arrayOpen
  | arrayClose
  | objectOpen
  | objectClose
  | comma
  | colon
  | null
  | bool (b : Bool)
  | number (n : Numeral)
  | string (t : Text)
  deriving DecidableEq

def isBlank (c : Char) : Bool := c = ' ' || c = '\t' || c = '\n' || c = '\r'

def punctuation? : Char → Option Token
  | '[' => some .arrayOpen
  | ']' => some .arrayClose
  | '\x7b' => some .objectOpen
  | '\x7d' => some .objectClose
  | ',' => some .comma
  | ':' => some .colon
  | _ => none

def isDelimiter (c : Char) : Bool := isBlank c || c = '"' || (punctuation? c).isSome

def Token.ofWord? (word : List Char) : Option Token :=
  if word = ['n', 'u', 'l', 'l'] then some .null
  else if word = ['t', 'r', 'u', 'e'] then some (.bool true)
  else if word = ['f', 'a', 'l', 's', 'e'] then some (.bool false)
  else (Numeral.ofChars? word).map .number

def isHighSurrogate (u : Nat) : Bool := 0xD800 ≤ u && u < 0xDC00

def isLowSurrogate (u : Nat) : Bool := 0xDC00 ≤ u && u < 0xE000

/-- Puts surrogate pairs together; fails on a half that stands alone. -/
def charsOfUnits : List Nat → Option (List Char)
  | [] => some []
  | [u] => if isHighSurrogate u || isLowSurrogate u then none else some [Char.ofNat u]
  | u :: v :: us =>
      if isHighSurrogate u && isLowSurrogate v then
        (charsOfUnits us).map
          (Char.ofNat (0x10000 + (u - 0xD800) * 0x400 + (v - 0xDC00)) :: ·)
      else if isHighSurrogate u || isLowSurrogate u then none
      else (charsOfUnits (v :: us)).map (Char.ofNat u :: ·)

def hexDigit? (c : Char) : Option Nat :=
  if '0' ≤ c ∧ c ≤ '9' then some (c.toNat - '0'.toNat)
  else if 'a' ≤ c ∧ c ≤ 'f' then some (c.toNat - 'a'.toNat + 10)
  else if 'A' ≤ c ∧ c ≤ 'F' then some (c.toNat - 'A'.toNat + 10)
  else none

def shortEscape? : Char → Option Nat
  | '"' => some 0x22
  | '\\' => some 0x5C
  | '/' => some 0x2F
  | 'b' => some 0x08
  | 'f' => some 0x0C
  | 'n' => some 0x0A
  | 'r' => some 0x0D
  | 't' => some 0x09
  | _ => none

namespace Lexer

/-- Where the lexer stands. What has been read of a word or a string is kept in reverse, a string
as code units. -/
inductive Mode where
  | between
  | word (read : List Char)
  | string (read : List Nat)
  | escape (read : List Nat)
  | hex (read : List Nat) (digits value : Nat)

structure State where
  before : List Token := []
  mode : Mode := .between

def start (before : List Token) (c : Char) : State :=
  if isBlank c then ⟨before, .between⟩
  else if c = '"' then ⟨before, .string []⟩
  else
    match punctuation? c with
    | some t => ⟨t :: before, .between⟩
    | none => ⟨before, .word [c]⟩

def step (s : State) (c : Char) : Option State :=
  match s.mode with
  | .between => some (start s.before c)
  | .word read =>
      if isDelimiter c then (Token.ofWord? read.reverse).map fun t => start (t :: s.before) c
      else some ⟨s.before, .word (c :: read)⟩
  | .string read =>
      if c = '"' then
        some ⟨.string ((charsOfUnits read.reverse).map String.ofList) :: s.before, .between⟩
      else if c = '\\' then some ⟨s.before, .escape read⟩
      else if c.toNat < 0x20 then none
      else some ⟨s.before, .string (c.toNat :: read)⟩
  | .escape read =>
      if c = 'u' then some ⟨s.before, .hex read 0 0⟩
      else (shortEscape? c).map fun u => ⟨s.before, .string (u :: read)⟩
  | .hex read digits value =>
      (hexDigit? c).map fun d =>
        if digits = 3 then ⟨s.before, .string ((value * 16 + d) :: read)⟩
        else ⟨s.before, .hex read (digits + 1) (value * 16 + d)⟩

def finish (s : State) : Option (List Token) :=
  match s.mode with
  | .between => some s.before.reverse
  | .word read => (Token.ofWord? read.reverse).map fun t => (t :: s.before).reverse
  | _ => none

end Lexer

def tokens? (cs : List Char) : Option (List Token) := do
  Lexer.finish (← cs.foldlM Lexer.step {})

end Reconcile.Json
