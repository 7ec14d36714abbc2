import Reconcile.Declaration

namespace Reconcile.Document

inductive Item where
  | tree (notes : Notes) (children : List Item)
  | scope (s : Scope) (notes : Notes) (children : List Item)
  | leaf (l : Leaf) (notes : Notes)

inductive Tag where
  | tree
  | moduleNamed
  | classNamed
  | singleton
  | constant
  | method
  | attribute (kind : AttributeKind)
  | mixin (kind : MixinKind)
  | marker
  | field (kind : FieldKind)
  | enumeration
  | helper
  | typeMember
  deriving DecidableEq

namespace Tag

def all : List Tag :=
  [.tree, .moduleNamed, .classNamed, .singleton, .constant, .method, .attribute .reader,
    .attribute .writer, .attribute .accessor, .mixin .inclusion, .mixin .extension,
    .mixin .classMethods, .marker, .field .prop, .field .fixed, .enumeration, .helper,
    .typeMember]

def name : Tag → String
  | .tree => "tree"
  | .moduleNamed => "module"
  | .classNamed => "class"
  | .singleton => "singleton_class"
  | .constant => "const"
  | .method => "method"
  | .attribute kind => kind.keyword
  | .mixin kind => kind.keyword
  | .marker => "visibility"
  | .field .prop => "prop"
  | .field .fixed => "const_field"
  | .enumeration => "enum"
  | .helper => "helper"
  | .typeMember => "type_member"

def fields : Tag → List String
  | .tree | .singleton => ["children"]
  | .moduleNamed => ["name", "children"]
  | .classNamed => ["name", "superclass", "children"]
  | .constant | .typeMember => ["name", "value"]
  | .method => ["name", "params", "singleton", "visibility", "sigs"]
  | .attribute _ => ["names", "visibility", "sigs"]
  | .mixin _ | .enumeration => ["names"]
  | .marker => ["visibility"]
  | .field _ => ["name", "type", "default"]
  | .helper => ["name"]

end Tag

end Reconcile.Document

namespace Reconcile

def Visibility.table : List (String × Visibility) :=
  Visibility.all.map fun v => (v.keyword, v)

namespace ParamKind

def all : List ParamKind :=
  [required, optional, rest, keyword, keywordOptional, keywordRest, block]

def name : ParamKind → String
  | required => "req"
  | optional => "opt"
  | rest => "rest"
  | keyword => "kw_req"
  | keywordOptional => "kw_opt"
  | keywordRest => "kw_rest"
  | block => "block"

def table : List (String × ParamKind) := all.map fun k => (k.name, k)

end ParamKind

end Reconcile
