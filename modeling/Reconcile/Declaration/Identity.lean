import Reconcile.Declaration

namespace Reconcile

/-- A name that starts with `::` stands for itself, wherever it is written. -/
def isAbsolute (name : String) : Bool :=
  match name.toList with
  | ':' :: ':' :: _ => true
  | _ => false

def Scope.qualify (outer : String) : Scope → String
  | .moduleNamed name | .classNamed name _ =>
      if isAbsolute name then name else outer ++ "::" ++ name
  | .singleton => outer ++ "::<self>"

/-- The slots that an attribute fills in its scope, one or two for each of its names. -/
def Attribute.keys (outer : String) (a : Attribute) : List String :=
  a.names.flatMap fun name =>
    match a.kind with
    | .reader => [outer ++ "#" ++ name]
    | .writer => [outer ++ "#" ++ name ++ "="]
    | .accessor => [outer ++ "#" ++ name, outer ++ "#" ++ name ++ "="]

def Leaf.keys (outer : String) : Leaf → List String
  | .constant name _ => [outer ++ "::" ++ name]
  | .method m => [outer ++ (if m.isSingleton then "::" else "#") ++ m.name]
  | .attribute a => a.keys outer
  | .mixin m => m.names.map fun name => outer ++ "." ++ m.kind.keyword ++ "(" ++ name ++ ")"
  | .marker _ => []
  | .field f =>
      match f.kind with
      | .prop => [outer ++ "#" ++ f.name, outer ++ "#" ++ f.name ++ "="]
      | .fixed => [outer ++ "#" ++ f.name]
  | .enumeration _ => [outer ++ ".enums"]
  | .helper name => [outer ++ "." ++ name ++ "!"]
  | .typeMember name _ => [outer ++ "." ++ name]

def Content.keys (outer : String) : Content → List String
  | .scope s => [s.qualify outer]
  | .leaf l => l.keys outer
  | _ => []

end Reconcile
