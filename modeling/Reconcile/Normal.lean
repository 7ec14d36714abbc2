import Reconcile.Forest.Visit
import Reconcile.Normal.Nesting
import Reconcile.Normal.Order

namespace Reconcile

inductive Pass where
  | nestSingletons
  | nestVisibilities
  | group
  | sort
  deriving DecidableEq

namespace Pass

def name : Pass → String
  | nestSingletons => "nest-singleton-methods"
  | nestVisibilities => "nest-non-public-methods"
  | group => "group-nodes"
  | sort => "sort-nodes"

/-- The passes in the order in which each one leaves alone what those before it did. -/
def canonical : List Pass := [nestSingletons, nestVisibilities, group, sort]

def change : Pass → Forest.Change
  | nestSingletons => Forest.nestSingletonsIn
  | nestVisibilities => Forest.nestVisibilitiesIn
  | group => Forest.groupIn
  | sort => Forest.sortIn

def run (p : Pass) (f : Forest) : Except Fault Forest := f.upward p.change

end Pass

namespace Forest

def runPasses (f : Forest) (passes : List Pass) : Except Fault Forest :=
  passes.foldlM (fun f p => p.run f) f

def normalize (f : Forest) : Except Fault Forest := f.runPasses Pass.canonical

end Forest

end Reconcile
