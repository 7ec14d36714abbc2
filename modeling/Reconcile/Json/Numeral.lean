namespace Reconcile.Json

inductive Numeral where
  | natural (n : Nat)
  | decimal (negative : Bool) (whole fraction : List Char) (exponent : Int)
  deriving DecidableEq

def digitValue (c : Char) : Nat := c.toNat - '0'.toNat

def digitsValue (digits : List Char) : Nat := digits.foldl (fun n c => n * 10 + digitValue c) 0

/-- Rounds to 53 significant bits. A number in the middle of two such goes to the one whose last bit
is zero. -/
def roundToDouble (n : Nat) : Nat :=
  let unit := Nat.pow 2 (n.log2 - 52)
  let kept := n / unit
  let rest := n % unit
  if unit < 2 * rest ∨ (2 * rest = unit ∧ kept % 2 = 1) then (kept + 1) * unit else kept * unit

def doubleBound : Nat := Nat.pow 2 1024 - Nat.pow 2 970

def largestPower : Nat := 308

/-- Appends digits to a significand up to the first one with which it is no number of 64 bits, and
gives the digits from there on. -/
def appendDigits (significand : Nat) : List Char → Nat × List Char
  | [] => (significand, [])
  | c :: cs =>
      let longer := significand * 10 + digitValue c
      if longer < UInt64.size then appendDigits longer cs else (significand, c :: cs)

/-- The significand of a number and the power of ten that scales it. Digits that do not fit count as
zeros in the whole part and are dropped from the fraction. -/
def scaled (whole fraction : List Char) (exponent : Int) : Nat × Int :=
  let (significand, skipped) := appendDigits 0 whole
  let (significand, dropped) := appendDigits significand fraction
  (significand, exponent + skipped.length - (fraction.length - dropped.length : Nat))

def isFiniteProduct (significand : Nat) (exponent : Int) : Bool :=
  significand = 0 || exponent < 0 ||
    (exponent ≤ largestPower &&
      roundToDouble significand * roundToDouble (Nat.pow 10 exponent.toNat) < doubleBound)

namespace Numeral

def isFinite : Numeral → Bool
  | natural n => let (s, e) := scaled (Nat.toDigits 10 n) [] 0; isFiniteProduct s e
  | decimal _ whole fraction exponent =>
      let (s, e) := scaled whole fraction exponent; isFiniteProduct s e

def isWhole : List Char → Bool
  | [] => false
  | ['0'] => true
  | digits@(c :: _) => c ≠ '0' && digits.all Char.isDigit

def isDigits (digits : List Char) : Bool := !digits.isEmpty && digits.all Char.isDigit

def exponent? : List Char → Option Int
  | '-' :: digits => if isDigits digits then some (-(digitsValue digits : Int)) else none
  | '+' :: digits => if isDigits digits then some (digitsValue digits : Int) else none
  | digits => if isDigits digits then some (digitsValue digits : Int) else none

def unsigned? (negative : Bool) (cs : List Char) : Option Numeral := do
  let plain := cs.takeWhile fun c => c ≠ 'e' && c ≠ 'E'
  let whole := plain.takeWhile (· ≠ '.')
  let fraction := plain.dropWhile (· ≠ '.')
  guard (isWhole whole)
  let exponent ←
    match cs.dropWhile fun c => c ≠ 'e' && c ≠ 'E' with
    | [] => some none
    | _ :: rest => (exponent? rest).map some
  match fraction with
  | [] =>
      match negative, exponent with
      | false, none => return natural (digitsValue whole)
      | _, _ => return decimal negative whole [] (exponent.getD 0)
  | _ :: digits => do
      guard (isDigits digits)
      return decimal negative whole digits (exponent.getD 0)

def ofChars? : List Char → Option Numeral
  | '-' :: cs => unsigned? true cs
  | cs => unsigned? false cs

/-- A point is written only if digits follow it. -/
def text : Numeral → String
  | natural n => toString n
  | decimal negative whole fraction exponent =>
      (if negative then "-" else "") ++ String.ofList whole ++
        (if fraction.isEmpty then "" else "." ++ String.ofList fraction) ++
        "e" ++ toString exponent

end Numeral

end Reconcile.Json
