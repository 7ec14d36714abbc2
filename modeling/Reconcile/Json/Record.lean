import Reconcile.Json.Value

namespace Reconcile.Json

abbrev Record := List (String × Value)

def textMembers? (members : List (Text × Value)) : Option (List (String × Value)) :=
  members.mapM fun (key, v) => key.map (·, v)

def Record.ofMembers? (fields : List String) (members : List (Text × Value)) : Option Record := do
  let given := (← textMembers? members).filter (·.1 ∈ fields)
  guard (given.map (·.1)).Nodup
  return given

def Value.record? (fields : List String) : Value → Option Record
  | object members => Record.ofMembers? fields members
  | array items => if items.length ≤ fields.length then some (fields.zip items) else none
  | _ => none

namespace Record

variable {α : Type}

def required (r : Record) (field : String) (read : Value → Option α) : Option α :=
  (r.lookup field).bind read

def withDefault (r : Record) (field : String) (otherwise : α) (read : Value → Option α) :
    Option α :=
  match r.lookup field with
  | some v => read v
  | none => some otherwise

def optional (r : Record) (field : String) (read : Value → Option α) : Option (Option α) :=
  match r.lookup field with
  | some .null | none => some none
  | some v => (read v).map some

end Record

namespace Value

def text? : Value → Option String
  | string t => t
  | _ => none

def bool? : Value → Option Bool
  | bool b => some b
  | _ => none

/-- A natural number of 64 bits, written with digits only. -/
def word? : Value → Option UInt64
  | number (.natural n) => if n < UInt64.size then some (UInt64.ofNat n) else none
  | _ => none

def list? {α : Type} (read : Value → Option α) : Value → Option (List α)
  | array items => items.mapM read
  | _ => none

def texts? : Value → Option (List String) := list? text?

def isNull : Value → Bool
  | null => true
  | _ => false

/-- One of a table of named choices: its name alone, or an object whose only key is the name and
whose value is void. -/
def choice? {α : Type} (isVoid : Value → Bool) (table : List (String × α)) : Value → Option α
  | string (some name) => table.lookup name
  | object [(some name, v)] => if isVoid v then table.lookup name else none
  | _ => none

end Value

end Reconcile.Json
