import Reconcile.Document.Reader
import Reconcile.Forest.Edit

namespace Reconcile.Document

inductive Error where
  | malformed
  | missingNames (keyword : String)
  deriving DecidableEq

def Error.message : Error → String
  | malformed => "malformed declaration tree"
  | missingNames keyword => "`" ++ keyword ++ "` declaration needs at least one name"

def nameless? : Leaf → Option String
  | .attribute a => if a.names.isEmpty then some a.kind.keyword else none
  | .mixin m => if m.names.isEmpty then some m.kind.keyword else none
  | _ => none

mutual

/-- The keyword of the first declaration in document order that lacks its names. -/
def Item.nameless? : Item → Option String
  | .tree _ children | .scope _ _ children => firstNameless? children
  | .leaf l _ => Document.nameless? l

def firstNameless? : List Item → Option String
  | [] => none
  | i :: is => i.nameless?.or (firstNameless? is)

end

def grow (f : Forest) (parent : Handle) (content : Content) (notes : Notes) : Forest :=
  let h := f.size
  let f := f.modify parent fun n => { n with children := n.children ++ [h] }
  ⟨f.nodes.push { kind := .plain content, notes, parent := some parent }⟩

mutual

def Item.plant (parent : Handle) (f : Forest) : Item → Forest
  | .tree notes children => plantAll f.size (grow f parent .tree notes) children
  | .scope s notes children => plantAll f.size (grow f parent (.scope s) notes) children
  | .leaf l notes => grow f parent (.leaf l) notes

def plantAll (parent : Handle) (f : Forest) : List Item → Forest
  | [] => f
  | i :: is => plantAll parent (i.plant parent f) is

end

/-- The forest whose root holds the items in order. -/
def build (items : List Item) : Except Error Forest :=
  match firstNameless? items with
  | some keyword => .error (.missingNames keyword)
  | none => .ok (plantAll Forest.root .empty items)

def ofValue (v : Json.Value) : Except Error Forest :=
  match read? v with
  | some items => build items
  | none => .error .malformed

def load (text : String) : Except Error Forest :=
  match parse? text with
  | some items => build items
  | none => .error .malformed

end Reconcile.Document
