import Mathlib.Data.List.Flatten
import Reconcile.Proofs.Forest.Holds

namespace Reconcile

/-- Scopes and leaves are declarations, other containers are not. -/
def Content.isDeclaration : Content → Bool
  | .scope _ | .leaf _ => true
  | _ => false

structure Entry where
  handle : Handle
  outer : String
  content : Content
  notes : Notes

namespace Entry

def keys (e : Entry) : List String := e.content.keys e.outer

/-- What an index holds about a declaration. -/
def registrations (e : Entry) : List (String × Handle) := e.keys.map (·, e.handle)

end Entry

namespace Outline

mutual

/-- The declarations that count for identity, in document order, each with the qualified name of the scope
that it is in. -/
def census (outer : String) : Outline → List Entry
  | node h content notes children =>
      if content.isDeclaration then ⟨h, outer, content, notes⟩ ::
        censusOfAll (content.qualify outer) children
      else censusOfAll (content.qualify outer) children
  | conflict _ _ _ _ left _ => left.census outer

def censusOfAll (outer : String) : List Outline → List Entry
  | [] => []
  | o :: os => o.census outer ++ censusOfAll outer os

end

variable {outer : String} {o : Outline} {e : Entry}

@[simp] theorem censusOfAll_eq (outer : String) (os : List Outline) :
    censusOfAll outer os = os.flatMap (census outer) := by
  induction os with
  | nil => rfl
  | cons o os ih => simp [censusOfAll, ih]

def ownEntry (outer : String) (h : Handle) (c : Content) (n : Notes) : List Entry :=
  if c.isDeclaration then [⟨h, outer, c, n⟩] else []

@[simp] theorem census_node (outer : String) (h : Handle) (c : Content) (n : Notes)
    (cs : List Outline) : (node h c n cs).census outer =
      ownEntry outer h c n ++ cs.flatMap (census (c.qualify outer)) := by
  cases hc : c.isDeclaration <;> simp [census, ownEntry, hc]

@[simp] theorem census_conflict (outer : String) (h : Handle) (form : ConflictForm) (labels : Labels)
    (n : Notes) (l r : Outline) :
    (conflict h form labels n l r).census outer = l.census outer := rfl

theorem census_fill (outer : String) (fr : Frame) : ∃ pre post, ∀ o : Outline,
    (fr.fill o).census outer = pre ++ o.census (fr.qualify outer) ++ post := by
  cases fr with
  | node h c n before after =>
      refine ⟨ownEntry outer h c n ++ before.flatMap (census (c.qualify outer)),
        after.flatMap (census (c.qualify outer)), fun o => ?_⟩
      simp [Frame.fill, Frame.qualify]
  | left h form labels n r => exact ⟨[], [], fun o => by simp [Frame.fill, Frame.qualify]⟩

/-- Replacing what is at the end of a way down changes the census in one place only. -/
theorem census_plug (outer : String) (path : List Frame) : ∃ pre post, ∀ o : Outline,
    (plug path o).census outer = pre ++ o.census (pathName outer path) ++ post := by
  induction path with
  | nil => exact ⟨[], [], fun o => by simp [plug, pathName]⟩
  | cons fr path ih =>
      obtain ⟨pre, post, h⟩ := ih
      obtain ⟨pre', post', h'⟩ := census_fill (pathName outer path) fr
      refine ⟨pre ++ pre', post' ++ post, fun o => ?_⟩
      rw [plug, h, h']
      simp [pathName]

theorem exists_path_of_mem_census (he : e ∈ o.census outer) :
    ∃ path cs, o = plug path (node e.handle e.content e.notes cs) ∧
      pathName outer path = e.outer ∧ e.content.isDeclaration = true := by
  induction o generalizing outer with
  | node h c n cs ih =>
      rw [census_node, List.mem_append, List.mem_flatMap] at he
      rcases he with he | ⟨o, hm, he⟩
      · unfold ownEntry at he
        split at he
        · cases List.mem_singleton.mp he
          exact ⟨[], cs, rfl, rfl, ‹_›⟩
        · cases he
      · obtain ⟨path, cs', rfl, hname, hdecl⟩ := ih o hm he
        obtain ⟨before, after, rfl⟩ := List.append_of_mem hm
        refine ⟨path ++ [.node h c n before after], cs', ?_, ?_, hdecl⟩
        · rw [plug_append]; rfl
        · rw [← hname]; simp [pathName, Frame.qualify]
  | conflict h form labels n l r ihl ihr =>
      obtain ⟨path, cs, rfl, hname, hdecl⟩ := ihl he
      refine ⟨path ++ [.left h form labels n r], cs, ?_, ?_, hdecl⟩
      · rw [plug_append]; rfl
      · rw [← hname]; simp [pathName, Frame.qualify]

theorem mem_census_plug (outer : String) (path : List Frame) {h : Handle} {c : Content} {n : Notes}
    {cs : List Outline} (hc : c.isDeclaration = true) :
    ⟨h, pathName outer path, c, n⟩ ∈ (plug path (node h c n cs)).census outer := by
  obtain ⟨pre, post, hp⟩ := census_plug outer path
  rw [hp]
  simp [ownEntry, hc]

theorem sublist_handles_census (outer : String) (o : Outline) :
    ((o.census outer).map Entry.handle).Sublist o.handles := by
  induction o generalizing outer with
  | node h c n cs ih =>
      rw [census_node, List.map_append, handles_node, ← List.singleton_append]
      apply List.Sublist.append
      · unfold ownEntry
        split <;> simp
      · rw [List.map_flatMap]
        exact List.Sublist.flatMap_right _ fun o ho => ih o ho _
  | conflict h form labels n l r ihl ihr =>
      rw [census_conflict, handles_conflict]
      exact ((ihl outer).trans (List.sublist_append_left _ _)).cons h

/-- A handle stands for one declaration. -/
theorem census_unique (hd : o.handles.Nodup) {e e' : Entry} (he : e ∈ o.census outer)
    (he' : e' ∈ o.census outer) (hh : e.handle = e'.handle) : e = e' :=
  List.inj_on_of_nodup_map (hd.sublist (sublist_handles_census outer o)) he he' hh

theorem exists_path_of_mem_subtrees {x : Outline} (hc : o.conflictFree = true)
    (hx : x ∈ o.subtrees) : ∃ path, o = plug path x := by
  induction o with
  | node h c n cs ih =>
      rw [subtrees_node, List.mem_cons, List.mem_flatMap] at hx
      rcases hx with rfl | ⟨o, hm, hx⟩
      · exact ⟨[], rfl⟩
      · rw [conflictFree_node] at hc
        obtain ⟨path, rfl⟩ := ih o hm (hc o hm) hx
        obtain ⟨before, after, rfl⟩ := List.append_of_mem hm
        refine ⟨path ++ [.node h c n before after], ?_⟩
        rw [plug_append]; rfl
  | conflict => cases hc

end Outline

namespace Forest

variable {f : Forest} {o : Outline} {path : List Frame} {h : Handle} {c : Content} {n : Notes}
  {cs : List Outline}

theorem kind_of_holds (ho : (Outline.plug path (.node h c n cs)).Holds f.look none) :
    f.kind h = .ok (.plain c) := by
  rw [holds_plug, Outline.holds_node] at ho
  exact kind_of_look ho.2.1

theorem keys_of_holds (ho : (Outline.plug path (.node h c n cs)).Holds f.look none)
    (hd : (Outline.plug path (.node h c n cs)).handles.Nodup) :
    f.keys h = .ok (c.keys (pathName "" path)) := by
  have hname : f.enclosingName h = _ := enclosingName_of_holds ho hd
  simp only [keys, kind_of_holds ho, hname, bind, Except.bind]
  rfl

theorem qualifiedName_of_holds (ho : (Outline.plug path (.node h c n cs)).Holds f.look none)
    (hd : (Outline.plug path (.node h c n cs)).handles.Nodup) :
    f.qualifiedName h = .ok (c.qualify (pathName "" path)) := by
  have hname : f.enclosingName h = _ := enclosingName_of_holds ho hd
  simp only [qualifiedName, kind_of_holds ho, hname, bind, Except.bind, Kind.scope?, Content.qualify]
  cases c.scope? <;> rfl

end Forest

end Reconcile
