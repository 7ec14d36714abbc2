import Reconcile.Declaration

namespace Reconcile

def commaSeparated (texts : List String) : String := ", ".intercalate texts

def Location.phrase (l : Location) : String :=
  l.file.getD "-" ++ ":" ++ toString l.beginLine.toNat ++ ":" ++ toString l.beginColumn.toNat ++
    "-" ++ toString l.endLine.toNat ++ ":" ++ toString l.endColumn.toNat

def Param.phrase (p : Param) : String :=
  let fallback := p.fallback.getD "nil"
  match p.kind with
  | .required => p.name
  | .optional => p.name ++ " = " ++ fallback
  | .rest => "*" ++ p.name
  | .keyword => p.name ++ ":"
  | .keywordOptional => p.name ++ ": " ++ fallback
  | .keywordRest => "**" ++ p.name
  | .block => "&" ++ p.name

def Param.linePhrase (p : Param) (last : Bool) : String :=
  p.phrase ++ (if last then "" else ",") ++ String.join (p.comments.map (" # " ++ ·))

def Signature.phrase (s : Signature) : String :=
  let calls :=
    (if s.isAbstract then ["abstract"] else []) ++
    (if s.isOverride then ["override"] else []) ++
    (if s.isOverridable then ["overridable"] else []) ++
    (if s.typeParams.isEmpty then []
      else ["type_parameters(" ++ commaSeparated (s.typeParams.map (":" ++ ·)) ++ ")"]) ++
    (if s.params.isEmpty then []
      else ["params(" ++ commaSeparated (s.params.map fun p => p.name ++ ": " ++ p.type) ++ ")"]) ++
    [match s.returns with
      | some type => "returns(" ++ type ++ ")"
      | none => "void"]
  (if s.isFinal then "sig(:final)" else "sig") ++ " \x7b " ++ ".".intercalate calls ++ " \x7d"

def Scope.header : Scope → String
  | .moduleNamed name => "module " ++ name
  | .classNamed name none => "class " ++ name
  | .classNamed name (some superclass) => "class " ++ name ++ " < " ++ superclass
  | .singleton => "class << self"

def Attribute.phrase (a : Attribute) : String :=
  a.kind.keyword ++ " " ++ commaSeparated (a.names.map (":" ++ ·))

def Mixin.phrase (m : Mixin) : String := m.kind.keyword ++ " " ++ commaSeparated m.names

def Field.phrase (f : Field) : String :=
  (match f.kind with | .prop => "prop" | .fixed => "const") ++ " :" ++ f.name ++ ", " ++ f.type ++
    (match f.fallback with | some value => ", default: " ++ value | none => "")

end Reconcile
