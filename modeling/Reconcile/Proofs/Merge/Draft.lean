import Reconcile.Merge
import Reconcile.Proofs.Forest.Census

namespace Reconcile.Merge

open Outline (plug)

/-- The scopes that have been entered carry their qualified names. Nodes that were recorded but not
placed are loose. `next` is the next handle to be given out. -/
structure Draft where
  outline : Outline
  loose : List Outline
  index : Index
  entered : List (Handle × String)
  conflicts : List Conflict
  next : Nat

/-- One edit of an outline that takes a number of new handles, the first being `k`. The flag says
whether a declaration is added. -/
inductive Edit (labels : Labels) (k : Handle) : Bool → Nat → Outline → Outline → Prop
  | grow (h : Handle) (c : Content) (n : Notes) (cs : List Outline) (d : Content) (m : Notes)
      (hc : c.isContainer = true) (hd : d.isDeclaration = true) :
      Edit labels k true 1 (.node h c n cs) (.node h c n (cs ++ [.node k d m []]))
  | annotate (h : Handle) (c : Content) (n : Notes) (cs : List Outline) (comments : List String) :
      Edit labels k false 0 (.node h c n cs) (.node h c (n.addComments comments) cs)
  | unite (h : Handle) (l : Leaf) (n : Notes) (cs : List Outline) (l' : Leaf)
      (comments : List String) (hl : l.compatible l' = true) :
      Edit labels k false 0 (.node h (.leaf l) n cs) (.node h (.leaf (l.absorb l')) (n.addComments comments) cs)
  | contest (q : Handle) (c : Content) (n : Notes) (before after : List Outline) (h : Handle)
      (t : Scope) (m : Notes) (cs : List Outline) (s : Scope) (m' : Notes) :
      Edit labels k false 2 (.node q c n (before ++ .node h (.scope t) m cs :: after))
        (.node q c n (before ++ .conflict (k + 1) .headers labels {} (.node h (.scope t) m cs)
          (.node k (.scope s) m' []) :: after))
  | join (q : Handle) (old : Labels) (n : Notes) (left : Outline) (r : Handle) (m : Notes)
      (rs : List Outline) (l : Leaf) (m' : Notes) :
      Edit labels k false 1 (.conflict q .declarations old n left (.node r .tree m rs))
        (.conflict q .declarations old n left (.node r .tree m (rs ++ [.node k (.leaf l) m' []])))
  | oppose (q : Handle) (c : Content) (n : Notes) (before after : List Outline) (x : Outline)
      (l : Leaf) (m : Notes) :
      Edit labels k false 4 (.node q c n (before ++ x :: after))
        (.node q c n (before ++ .conflict (k + 3) .declarations labels {} (.node (k + 1) .tree {} [x])
          (.node (k + 2) .tree {} [.node k (.leaf l) m []]) :: after))

namespace Draft

def empty : Draft := ⟨.node Forest.root .tree {} [], [], {}, [], [], 1⟩

variable (P : Draft)

def handles : List Handle := P.outline.handles ++ P.loose.flatMap Outline.handles

def census : List Entry := P.outline.census ""

def current : Handle := (P.entered.head?.map (·.1)).getD Forest.root

def name : String := (P.entered.head?.map (·.2)).getD ""

def isScopeAt (h : Handle) : Bool :=
  P.census.any fun e => e.handle = h && e.content.scope?.isSome

def scopeUnder? (key : String) : Option Handle := (P.index.recent key).find? P.isScopeAt

def previous? (keys : List String) : Option (String × Handle) :=
  keys.findSome? fun key => (P.index.last? key).map (key, ·)

def record (o : Options) (key : String) (left right : Handle) : List Conflict :=
  P.conflicts ++ [⟨key, left, right, o.labels⟩]

/-- Whether a way down ends on the left side of a conflict of declarations. -/
def onSide : List Frame → Bool
  | .left _ .declarations .. :: _ => true
  | _ => false

end Draft

open Draft (onSide)

/-- What one event does to a draft. -/
inductive Step (o : Options) (P : Draft) : Event → Draft → Prop
  | newScope (s : Scope) (n : Notes) (path : List Frame) (c : Content) (m : Notes)
      (cs : List Outline) (hu : P.scopeUnder? (s.qualify P.name) = none)
      (hp : P.outline = plug path (.node P.current c m cs)) (hc : c.isContainer = true)
      (hn : c.qualify (pathName "" path) = P.name) :
      Step o P (.enter s n)
        { P with
          outline := plug path (.node P.current c m (cs ++ [.node P.next (.scope s) n []]))
          index := P.index.insertAll [s.qualify P.name] P.next
          entered := (P.next, s.qualify P.name) :: P.entered
          next := P.next + 1 }
  | knownScope (s : Scope) (n : Notes) (path : List Frame) (h : Handle) (m : Notes)
      (cs : List Outline) (hu : P.scopeUnder? (s.qualify P.name) = some h)
      (hp : P.outline = plug path (.node h (.scope s) m cs)) :
      Step o P (.enter s n)
        { P with
          outline := plug path (.node h (.scope s) (m.addComments n.comments) cs)
          entered := (h, s.qualify P.name) :: P.entered }
  | keptHeader (s : Scope) (n : Notes) (path : List Frame) (h : Handle) (t : Scope) (m : Notes)
      (cs : List Outline) (hu : P.scopeUnder? (s.qualify P.name) = some h)
      (hp : P.outline = plug path (.node h (.scope t) m cs)) (hne : t ≠ s) (hk : o.keep = .left) :
      Step o P (.enter s n) { P with entered := (h, s.qualify P.name) :: P.entered }
  | contestedHeader (s : Scope) (n : Notes) (path : List Frame) (q : Handle) (c : Content)
      (nq : Notes) (before after : List Outline) (h : Handle) (t : Scope) (m : Notes)
      (cs : List Outline) (hu : P.scopeUnder? (s.qualify P.name) = some h)
      (hp : P.outline = plug path (.node q c nq (before ++ .node h (.scope t) m cs :: after)))
      (hne : t ≠ s) (hk : o.keep = .both) :
      Step o P (.enter s n)
        { P with
          outline := plug path (.node q c nq (before ++ .conflict (P.next + 1) .headers o.labels {}
            (.node h (.scope t) m cs) (.node P.next (.scope s) n []) :: after))
          entered := (h, s.qualify P.name) :: P.entered
          conflicts := P.record o (s.qualify P.name) h P.next
          next := P.next + 2 }
  | repeatedHeader (s : Scope) (n : Notes) (path : List Frame) (q : Handle) (old : Labels)
      (nq : Notes) (r : Outline) (h : Handle) (t : Scope) (m : Notes) (cs : List Outline)
      (hu : P.scopeUnder? (s.qualify P.name) = some h)
      (hp : P.outline = plug path (.conflict q .headers old nq (.node h (.scope t) m cs) r))
      (hne : t ≠ s) (hk : o.keep = .both) :
      Step o P (.enter s n)
        { P with
          loose := P.loose ++ [.node P.next (.scope s) n []]
          entered := (h, s.qualify P.name) :: P.entered
          conflicts := P.record o (s.qualify P.name) h P.next
          next := P.next + 1 }
  | left : Step o P .leave { P with entered := P.entered.tail }
  | newLeaf (l : Leaf) (n : Notes) (path : List Frame) (c : Content) (m : Notes) (cs : List Outline)
      (hu : P.previous? (l.keys P.name) = none)
      (hp : P.outline = plug path (.node P.current c m cs)) (hc : c.isContainer = true)
      (hn : c.qualify (pathName "" path) = P.name) :
      Step o P (.declare l n)
        { P with
          outline := plug path (.node P.current c m (cs ++ [.node P.next (.leaf l) n []]))
          index := P.index.insertAll (l.keys P.name) P.next
          next := P.next + 1 }
  | unitedLeaf (l : Leaf) (n : Notes) (path : List Frame) (key : String) (h : Handle) (l' : Leaf)
      (m : Notes) (cs : List Outline) (hu : P.previous? (l.keys P.name) = some (key, h))
      (hp : P.outline = plug path (.node h (.leaf l') m cs)) (hl : l'.compatible l = true) :
      Step o P (.declare l n)
        { P with
          outline := plug path (.node h (.leaf (l'.absorb l)) (m.addComments n.comments) cs) }
  | keptLeaf (l : Leaf) (n : Notes) (path : List Frame) (key : String) (h : Handle) (c : Content)
      (m : Notes) (cs : List Outline) (hu : P.previous? (l.keys P.name) = some (key, h))
      (hp : P.outline = plug path (.node h c m cs)) (hl : c.compatible (.leaf l) = false)
      (hk : o.keep = .left) :
      Step o P (.declare l n) P
  | joinedLeaf (l : Leaf) (n : Notes) (path : List Frame) (key : String) (q : Handle) (old : Labels)
      (nq : Notes) (b : Handle) (nb : Notes) (before after : List Outline) (h : Handle) (c : Content)
      (m : Notes) (cs : List Outline) (r : Handle) (nr : Notes) (rs : List Outline)
      (hu : P.previous? (l.keys P.name) = some (key, h))
      (hp : P.outline = plug path (.conflict q .declarations old nq
        (.node b .tree nb (before ++ .node h c m cs :: after)) (.node r .tree nr rs)))
      (hl : c.compatible (.leaf l) = false) (hk : o.keep = .both) :
      Step o P (.declare l n)
        { P with
          outline := plug path (.conflict q .declarations old nq
            (.node b .tree nb (before ++ .node h c m cs :: after))
            (.node r .tree nr (rs ++ [.node P.next (.leaf l) n []])))
          conflicts := P.record o key h P.next
          next := P.next + 1 }
  | opposedLeaf (l : Leaf) (n : Notes) (path : List Frame) (key : String) (q : Handle) (d : Content)
      (nq : Notes) (before after : List Outline) (h : Handle) (c : Content) (m : Notes)
      (cs : List Outline) (hu : P.previous? (l.keys P.name) = some (key, h))
      (hp : P.outline = plug path (.node q d nq (before ++ .node h c m cs :: after)))
      (hs : onSide path = false) (hl : c.compatible (.leaf l) = false) (hk : o.keep = .both) :
      Step o P (.declare l n)
        { P with
          outline := plug path (.node q d nq (before ++
            .conflict (P.next + 3) .declarations o.labels {} (.node (P.next + 1) .tree {}
              [.node h c m cs]) (.node (P.next + 2) .tree {} [.node P.next (.leaf l) n []]) :: after))
          conflicts := P.record o key h P.next
          next := P.next + 4 }
  | opposedHeaders (l : Leaf) (n : Notes) (path : List Frame) (key : String) (q : Handle)
      (d : Content) (nq : Notes) (before after : List Outline) (k : Handle) (old : Labels) (nk : Notes)
      (h : Handle) (c : Content) (m : Notes) (cs : List Outline) (r : Outline)
      (hu : P.previous? (l.keys P.name) = some (key, h))
      (hp : P.outline = plug path (.node q d nq (before ++
        .conflict k .headers old nk (.node h c m cs) r :: after)))
      (hl : c.compatible (.leaf l) = false) (hk : o.keep = .both) :
      Step o P (.declare l n)
        { P with
          outline := plug path (.node q d nq (before ++
            .conflict (P.next + 3) .declarations o.labels {} (.node (P.next + 1) .tree {}
              [.conflict k .headers old nk (.node h c m cs) r])
              (.node (P.next + 2) .tree {} [.node P.next (.leaf l) n []]) :: after))
          conflicts := P.record o key h P.next
          next := P.next + 4 }
  | remarked (comments : List String) (path : List Frame) (c : Content) (m : Notes)
      (cs : List Outline) (hp : P.outline = plug path (.node P.current c m cs))
      (hn : c.qualify (pathName "" path) = P.name) :
      Step o P (.remark comments)
        { P with outline := plug path (.node P.current c (m.addComments comments) cs) }

end Reconcile.Merge
