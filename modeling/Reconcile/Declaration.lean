namespace Reconcile

inductive Visibility where
  | pub
  | prot
  | priv
  deriving DecidableEq

namespace Visibility

def keyword : Visibility → String
  | pub => "public"
  | prot => "protected"
  | priv => "private"

def all : List Visibility := [pub, prot, priv]

end Visibility

structure Location where
  file : Option String := none
  beginLine : UInt64 := 0
  beginColumn : UInt64 := 0
  endLine : UInt64 := 0
  endColumn : UInt64 := 0
  deriving DecidableEq

/-- What may accompany any declaration without being part of it. -/
structure Notes where
  comments : List String := []
  location : Option Location := none
  deriving DecidableEq

inductive ParamKind where
  | required
  | optional
  | rest
  | keyword
  | keywordOptional
  | keywordRest
  | block
  deriving DecidableEq

structure Param where
  kind : ParamKind
  name : String
  fallback : Option String := none
  comments : List String := []
  deriving DecidableEq

structure TypedName where
  name : String
  type : String
  deriving DecidableEq

structure Signature where
  params : List TypedName := []
  returns : Option String := none
  isAbstract : Bool := false
  isOverride : Bool := false
  isOverridable : Bool := false
  isFinal : Bool := false
  typeParams : List String := []
  deriving DecidableEq

inductive Scope where
  | moduleNamed (name : String)
  | classNamed (name : String) (superclass : Option String)
  | singleton
  deriving DecidableEq

namespace Scope

def name? : Scope → Option String
  | moduleNamed name | classNamed name _ => some name
  | singleton => none

end Scope

structure Method where
  name : String
  params : List Param := []
  isSingleton : Bool := false
  visibility : Visibility := .pub
  signatures : List Signature := []
  deriving DecidableEq

namespace Method

def isInitializer (m : Method) : Bool := m.name == "initialize"

end Method

inductive AttributeKind where
  | reader
  | writer
  | accessor
  deriving DecidableEq

namespace AttributeKind

def keyword : AttributeKind → String
  | reader => "attr_reader"
  | writer => "attr_writer"
  | accessor => "attr_accessor"

end AttributeKind

structure Attribute where
  kind : AttributeKind
  names : List String
  visibility : Visibility := .pub
  signatures : List Signature := []
  deriving DecidableEq

inductive MixinKind where
  | inclusion
  | extension
  | classMethods
  deriving DecidableEq

namespace MixinKind

def keyword : MixinKind → String
  | inclusion => "include"
  | extension => "extend"
  | classMethods => "mixes_in_class_methods"

end MixinKind

structure Mixin where
  kind : MixinKind
  names : List String
  deriving DecidableEq

inductive FieldKind where
  | prop
  | fixed
  deriving DecidableEq

structure Field where
  kind : FieldKind
  name : String
  type : String
  fallback : Option String := none
  deriving DecidableEq

inductive Leaf where
  | constant (name value : String)
  | method (m : Method)
  | attribute (a : Attribute)
  | mixin (m : Mixin)
  /-- Changes the visibility of what follows it in a flat body. -/
  | marker (v : Visibility)
  | field (f : Field)
  | enumeration (names : List String)
  | helper (name : String)
  | typeMember (name value : String)
  deriving DecidableEq

inductive Category where
  | mixins
  | helpers
  | typeMembers
  | classMethodMixins
  | fields
  | enumerations
  | initializers
  | methods
  | scopesAndConstants
  deriving DecidableEq

inductive Content where
  | tree
  | scope (s : Scope)
  | visibilityGroup (v : Visibility)
  | group (c : Category)
  | leaf (l : Leaf)
  deriving DecidableEq

namespace Content

def isContainer : Content → Bool
  | leaf _ => false
  | _ => true

def scope? : Content → Option Scope
  | scope s => some s
  | _ => none

def name? : Content → Option String
  | scope s => s.name?
  | leaf (.constant name _) => some name
  | leaf (.method m) => some m.name
  | leaf (.attribute a) => a.names.head?
  | leaf (.field f) => some f.name
  | leaf (.helper name) => some name
  | leaf (.typeMember name _) => some name
  | _ => none

end Content

end Reconcile
