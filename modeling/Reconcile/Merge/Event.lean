import Reconcile.Forest.Outline

namespace Reconcile

namespace Merge

/-- What a merge meets on its way through a tree. Trees and groups leave no trace but their comments. -/
inductive Event where
  | enter (scope : Scope) (notes : Notes)
  | leave
  | declare (leaf : Leaf) (notes : Notes)
  | remark (comments : List String)
  | carry (conflict : Outline)

end Merge

namespace Outline

open Merge (Event)

mutual

def events : Outline → List Event
  | node _ (.scope s) notes children => .enter s notes :: eventsOfAll children ++ [.leave]
  | node _ (.leaf l) notes _ => [.declare l notes]
  | node _ _ notes children => .remark notes.comments :: eventsOfAll children
  | conflict h form labels notes left right => [.carry (.conflict h form labels notes left right)]

def eventsOfAll : List Outline → List Event
  | [] => []
  | o :: os => o.events ++ eventsOfAll os

end

end Outline

end Reconcile
