import Reconcile.Declaration

namespace Reconcile

namespace Category

def all : List Category :=
  [mixins, helpers, typeMembers, classMethodMixins, fields, enumerations, initializers, methods,
    scopesAndConstants]

def rank : Category → Nat
  | mixins => 0
  | helpers => 1
  | typeMembers => 2
  | classMethodMixins => 3
  | fields => 4
  | enumerations => 5
  | initializers => 6
  | methods => 7
  | scopesAndConstants => 8

end Category

def Leaf.category : Leaf → Category
  | .constant _ _ => .scopesAndConstants
  | .method m => if m.isInitializer then .initializers else .methods
  | .attribute _ => .methods
  | .mixin m =>
      match m.kind with
      | .inclusion | .extension => .mixins
      | .classMethods => .classMethodMixins
  | .marker _ => .methods
  | .field _ => .fields
  | .enumeration _ => .enumerations
  | .helper _ => .helpers
  | .typeMember _ _ => .typeMembers

def Content.category : Content → Category
  | .tree | .scope _ => .scopesAndConstants
  | .visibilityGroup _ => .methods
  | .group c => c
  | .leaf l => l.category

/-- The rank of a declaration among its siblings, compared lexicographically. Singleton methods
follow the other methods, and plain trees follow everything. -/
def Content.rank : Content → Nat × Nat
  | .tree => (Category.scopesAndConstants.rank + 1, 0)
  | .leaf (.method m) =>
      if m.isInitializer then (Category.initializers.rank, 0)
      else (Category.methods.rank, if m.isSingleton then 1 else 0)
  | c => (c.category.rank, 0)

end Reconcile
