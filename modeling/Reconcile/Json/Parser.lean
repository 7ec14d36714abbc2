import Reconcile.Json.Token

namespace Reconcile.Json

namespace Parser

/-- An array or an object that is not closed yet, with what it holds in reverse. The object waits
for the value of a key. -/
inductive Frame where
  | array (items : List Value)
  | object (members : List (Text × Value)) (key : Text)

inductive State where
  | value (stack : List Frame)
  | item (stack : List Frame)
  | member (stack : List Frame)
  | key (stack : List Frame) (members : List (Text × Value))
  | colon (stack : List Frame) (members : List (Text × Value)) (key : Text)
  | after (stack : List Frame) (v : Value)

def startValue (stack : List Frame) : Token → Option State
  | .arrayOpen => some (.item stack)
  | .objectOpen => some (.member stack)
  | .null => some (.after stack .null)
  | .bool b => some (.after stack (.bool b))
  | .number n => some (.after stack (.number n))
  | .string t => some (.after stack (.string t))
  | _ => none

def step : State → Token → Option State
  | .value stack, t => startValue stack t
  | .item stack, .arrayClose => some (.after stack (.array []))
  | .item stack, t => startValue (.array [] :: stack) t
  | .member stack, .objectClose => some (.after stack (.object []))
  | .member stack, .string k => some (.colon stack [] k)
  | .key stack members, .string k => some (.colon stack members k)
  | .colon stack members k, .colon => some (.value (.object members k :: stack))
  | .after (.array items :: stack) v, .comma => some (.value (.array (v :: items) :: stack))
  | .after (.array items :: stack) v, .arrayClose =>
      some (.after stack (.array (v :: items).reverse))
  | .after (.object members k :: stack) v, .comma => some (.key stack ((k, v) :: members))
  | .after (.object members k :: stack) v, .objectClose =>
      some (.after stack (.object ((k, v) :: members).reverse))
  | _, _ => none

def finish : State → Option Value
  | .after [] v => some v
  | _ => none

end Parser

def ofTokens? (ts : List Token) : Option Value := do
  Parser.finish (← ts.foldlM Parser.step (.value []))

/-- The value of a JSON text, which must hold one value and nothing else. -/
def parse? (text : String) : Option Value := do
  ofTokens? (← tokens? text.toList)

end Reconcile.Json
