import Reconcile.Forest.Ancestry
import Reconcile.Forest.Edit
import Reconcile.Forest.Visit

namespace Reconcile

namespace Kind

def isSingletonMethod : Kind → Bool
  | plain (.leaf (.method m)) => m.isSingleton
  | _ => false

def clearSingleton : Kind → Kind
  | plain (.leaf (.method m)) => plain (.leaf (.method { m with isSingleton := false }))
  | k => k

def visibility? : Kind → Option Visibility
  | plain (.leaf (.method m)) => some m.visibility
  | plain (.leaf (.attribute a)) => some a.visibility
  | _ => none

end Kind

namespace Forest

def moveSingleton (scope : Handle) (f : Forest) (method : Handle) : Except Fault Forest := do
  (← f.update method fun n => { n with kind := n.kind.clearSingleton }).attach scope method

def nestSingletonsIn : Change := fun f h children => do
  let methods := (← f.kinds children).filter (·.2.isSingletonMethod) |>.map (·.1)
  if methods.isEmpty then return f
  let (f, scope) ← f.append h (.scope .singleton) {}
  methods.foldlM (moveSingleton scope) f

def nestVisibilitiesIn : Change := fun f h children => do
  if ← f.inVisibilityGroup h then return f
  let kinds ← f.kinds children
  Visibility.all.foldlM (fun f v => gather h (.visibilityGroup v) f
    ((kinds.filter (·.2.visibility? = some v)).map (·.1))) f

/-- Detaches a child and says which nodes go to which category in its place. -/
def release (state : Forest × List (Category × Handle)) (child : Handle) :
    Except Fault (Forest × List (Category × Handle)) := do
  let (f, released) := state
  let f ← f.detach child
  match ← f.kind child with
  | .plain (.group c) =>
      let members ← f.children child
      return (← members.foldlM detach f, released ++ members.map (c, ·))
  | kind => return (f, released ++ [(kind.category, child)])

def isGroup (f : Forest) (h : Handle) : Except Fault Bool :=
  return match ← f.kind h with
    | .plain (.group _) => true
    | _ => false

def groupIn : Change := fun f h children => do
  if ← f.isGroup h then return f
  let (f, released) ← children.foldlM release (f, [])
  Category.all.foldlM (fun f c => gather h (.group c) f
    ((released.filter (·.1 = c)).map (·.2))) f

end Forest

end Reconcile
