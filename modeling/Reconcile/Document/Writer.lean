import Reconcile.Document
import Reconcile.Json.Writer

namespace Reconcile

open Json (Value)

def Location.write (l : Location) : Value :=
  .ofMembers
    [("file", .ofOption .ofString l.file),
      ("begin_line", .ofNat l.beginLine.toNat),
      ("begin_column", .ofNat l.beginColumn.toNat),
      ("end_line", .ofNat l.endLine.toNat),
      ("end_column", .ofNat l.endColumn.toNat)]

def Param.write (p : Param) : Value :=
  .ofMembers
    [("kind", .ofString p.kind.name),
      ("name", .ofString p.name),
      ("default", .ofOption .ofString p.fallback),
      ("comments", .ofStrings p.comments)]

def TypedName.write (p : TypedName) : Value :=
  .ofMembers [("name", .ofString p.name), ("type", .ofString p.type)]

def Signature.write (s : Signature) : Value :=
  .ofMembers
    [("params", .array (s.params.map TypedName.write)),
      ("returns", .ofOption .ofString s.returns),
      ("abstract", .bool s.isAbstract),
      ("override", .bool s.isOverride),
      ("overridable", .bool s.isOverridable),
      ("final", .bool s.isFinal),
      ("type_params", .ofStrings s.typeParams)]

namespace Document

def writeVisibility (v : Visibility) : Value := .ofString v.keyword

def writeSignatures (ss : List Signature) : Value := .array (ss.map Signature.write)

def scopeTag : Scope → Tag
  | .moduleNamed _ => .moduleNamed
  | .classNamed _ _ => .classNamed
  | .singleton => .singleton

def leafTag : Leaf → Tag
  | .constant _ _ => .constant
  | .method _ => .method
  | .attribute a => .attribute a.kind
  | .mixin m => .mixin m.kind
  | .marker _ => .marker
  | .field f => .field f.kind
  | .enumeration _ => .enumeration
  | .helper _ => .helper
  | .typeMember _ _ => .typeMember

def Item.tag : Item → Tag
  | .tree _ _ => .tree
  | .scope s _ _ => scopeTag s
  | .leaf l _ => leafTag l

def scopeMembers : Scope → List (String × Value)
  | .moduleNamed name => [("name", .ofString name)]
  | .classNamed name superclass =>
      [("name", .ofString name), ("superclass", .ofOption .ofString superclass)]
  | .singleton => []

def leafMembers : Leaf → List (String × Value)
  | .constant name value => [("name", .ofString name), ("value", .ofString value)]
  | .method m =>
      [("name", .ofString m.name),
        ("params", .array (m.params.map Param.write)),
        ("singleton", .bool m.isSingleton),
        ("visibility", writeVisibility m.visibility),
        ("sigs", writeSignatures m.signatures)]
  | .attribute a =>
      [("names", .ofStrings a.names),
        ("visibility", writeVisibility a.visibility),
        ("sigs", writeSignatures a.signatures)]
  | .mixin m => [("names", .ofStrings m.names)]
  | .marker v => [("visibility", writeVisibility v)]
  | .field f =>
      [("name", .ofString f.name),
        ("type", .ofString f.type),
        ("default", .ofOption .ofString f.fallback)]
  | .enumeration names => [("names", .ofStrings names)]
  | .helper name => [("name", .ofString name)]
  | .typeMember name value => [("name", .ofString name), ("value", .ofString value)]

def noteMembers (notes : Notes) : List (String × Value) :=
  (if notes.comments.isEmpty then [] else [("comments", .ofStrings notes.comments)]) ++
    match notes.location with
    | some l => [("loc", l.write)]
    | none => []

def writeTagged (tag : Tag) (members : List (String × Value)) (notes : Notes) : Value :=
  .ofMembers (("kind", .ofString tag.name) :: members ++ noteMembers notes)

mutual

def Item.write : Item → Value
  | .tree notes children => writeTagged .tree [("children", .array (writeItems children))] notes
  | .scope s notes children =>
      writeTagged (scopeTag s) (scopeMembers s ++ [("children", .array (writeItems children))])
        notes
  | .leaf l notes => writeTagged (leafTag l) (leafMembers l) notes

def writeItems : List Item → List Value
  | [] => []
  | i :: is => i.write :: writeItems is

end

def write (items : List Item) : Value := .array (writeItems items)

end Document

end Reconcile
