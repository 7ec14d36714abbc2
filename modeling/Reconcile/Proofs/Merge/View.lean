import Reconcile.Proofs.Forest.Amend
import Reconcile.Proofs.Merge.Progress

namespace Reconcile.Merge

open Outline (plug amend resolved)

structure View where
  outlines : List Outline
  index : Index
  entered : List (Handle × String)

namespace View

variable (v : View)

def census : List Entry := v.outlines.flatMap (Outline.census "")

def current : Handle := (v.entered.head?.map (·.1)).getD Forest.root

def name : String := (v.entered.head?.map (·.2)).getD ""

def isScopeAt (h : Handle) : Bool :=
  v.census.any fun e => e.handle = h && e.content.scope?.isSome

def scopeUnder? (key : String) : Option Handle := (v.index.recent key).find? v.isScopeAt

def previous? (keys : List String) : Option Handle :=
  keys.findSome? fun key => v.index.last? key

def contentAt (h : Handle) : Option Content :=
  (v.census.find? (·.handle = h)).map Entry.content

def amend (h : Handle) (a : Amendment) : View := { v with outlines := v.outlines.map (Outline.amend h a) }

def grow (k : Handle) (c : Content) (n : Notes) : View :=
  { v.amend v.current { added := [.node k c n []] } with
    index := v.index.insertAll (c.keys v.name) k }

def unite (h : Handle) (c : Content) (n : Notes) : View :=
  if (v.contentAt h).any (·.compatible c) then
    v.amend h { content := (·.absorb c), notes := (·.addComments n.comments) }
  else v

def enter (h : Handle) (name : String) : View := { v with entered := (h, name) :: v.entered }

/-- The view after an event that may give out the handle `k`. -/
def step (k : Handle) : Event → View
  | .enter s n =>
      match v.scopeUnder? (s.qualify v.name) with
      | none => (v.grow k (.scope s) n).enter k (s.qualify v.name)
      | some h => (v.unite h (.scope s) n).enter h (s.qualify v.name)
  | .leave => { v with entered := v.entered.tail }
  | .declare l n =>
      match v.previous? (l.keys v.name) with
      | none => v.grow k (.leaf l) n
      | some h => v.unite h (.leaf l) n
  | .remark comments => v.amend v.current { notes := (·.addComments comments) }
  | .carry _ => v

end View

namespace Draft

variable {P : Draft} {path : List Frame} {x y : Outline} {h : Handle} {c : Content} {m : Notes}
  {cs : List Outline}

/-- All that a merge looks at when it brings in a declaration: conflicts are resolved to the left. -/
def view (P : Draft) : View := ⟨P.outline.resolved, P.index, P.entered⟩

theorem census_view (hv : P.Valid) : P.view.census = P.census :=
  Outline.census_resolved hv.sound ""

theorem scopeUnder?_view (hv : P.Valid) (key : String) : P.view.scopeUnder? key = P.scopeUnder? key := by
  have hs : P.view.isScopeAt = P.isScopeAt := by
    funext h
    rw [View.isScopeAt, census_view hv, isScopeAt]
  rw [View.scopeUnder?, hs]
  rfl

theorem previous?_view (P : Draft) (keys : List String) :
    P.view.previous? keys = (P.previous? keys).map (·.2) := by
  rw [View.previous?, previous?, List.map_findSome?]
  congr
  funext key
  change P.index.last? key = ((P.index.last? key).map (key, ·)).map (·.2)
  rw [Option.map_map]
  exact Option.map_id'.symm

theorem contentAt_view (hv : P.Valid) (hp : P.outline = plug path (.node h c m cs))
    (hd : c.isDeclaration = true) : P.view.contentAt h = some c := by
  have hm : ⟨h, pathName "" path, c, m⟩ ∈ P.census := by
    rw [census, hp]
    exact Outline.mem_census_plug "" path hd
  rw [View.contentAt, census_view hv]
  cases hf : P.census.find? (·.handle = h) with
  | none => simpa using List.find?_eq_none.mp hf _ hm
  | some e =>
      have he : e.handle = h := by simpa using List.find?_some hf
      rw [Outline.census_unique hv.nodup_outline (List.mem_of_find?_eq_some hf) hm he]
      rfl

theorem resolved_amend (a : Amendment) (hv : P.Valid) (hp : P.outline = plug path (.node h c m cs))
    (hd : c.isDeclaration = true ∨ path = []) (ha : a.added.flatMap resolved = a.added) :
    (plug path (.node h (a.content c) (a.notes m) (cs ++ a.added))).resolved =
      P.outline.resolved.map (amend h a) := by
  have hnodup := hv.nodup_outline
  rw [hp, Outline.nodup_plug_iff, Outline.handles_node, List.nodup_cons] at hnodup
  obtain ⟨-, ⟨hcs, -⟩, hdisj⟩ := hnodup
  have hs := hv.sound
  rw [hp] at hs ⊢
  refine Outline.resolved_plug_amend hs (fun hm => hdisj hm (by simp)) ?_ ?_
  · rintro k form labels n r rest rfl
    rcases hd with hd | hd
    · exact Or.inl (headers_of_sound hv.root.2 hp hs hd).1
    · cases hd
  · have hkeep : (cs.flatMap resolved).map (amend h a) = cs.flatMap resolved := by
      apply Outline.map_amend
      intro z hz
      obtain ⟨x, hx, hz⟩ := List.mem_flatMap.mp hz
      exact Outline.amend_of_not_mem fun hm =>
        hcs (Outline.handles_subset hx (Outline.resolved_subset hz hm))
    rw [Outline.resolved_node, Outline.resolved_node, List.map_singleton, Outline.amend_self, hkeep,
      List.flatMap_append, ha]

theorem resolved_amend_current (a : Amendment) (hv : P.Valid)
    (hp : P.outline = plug path (.node P.current c m cs)) (ha : a.added.flatMap resolved = a.added) :
    (plug path (.node P.current (a.content c) (a.notes m) (cs ++ a.added))).resolved =
      P.outline.resolved.map (amend P.current a) := by
  refine resolved_amend a hv hp ?_ ha
  rcases hv.standing.current_cases hp with ⟨s, rfl⟩ | ⟨-, hpath, -⟩
  · exact Or.inl rfl
  · exact Or.inr hpath

theorem step_enter (hv : P.Valid) (s : Scope) (n : Notes) : P.view.step P.next (.enter s n) =
    match P.scopeUnder? (s.qualify P.name) with
    | none => (P.view.grow P.next (.scope s) n).enter P.next (s.qualify P.name)
    | some h => (P.view.unite h (.scope s) n).enter h (s.qualify P.name) := by
  rw [← scopeUnder?_view hv]
  rfl

theorem step_declare (l : Leaf) (n : Notes) : P.view.step P.next (.declare l n) =
    match P.previous? (l.keys P.name) with
    | none => P.view.grow P.next (.leaf l) n
    | some (_, h) => P.view.unite h (.leaf l) n := by
  have hu : P.view.previous? (l.keys P.view.name) = (P.previous? (l.keys P.name)).map (·.2) :=
    previous?_view P _
  rw [View.step, hu]
  cases P.previous? (l.keys P.name) <;> rfl

theorem step_enter_found (hv : P.Valid) {s : Scope} (n : Notes)
    (hu : P.scopeUnder? (s.qualify P.name) = some h) : P.view.step P.next (.enter s n) =
      (P.view.unite h (.scope s) n).enter h (s.qualify P.name) := by
  rw [step_enter hv, hu]

theorem step_declare_found {l : Leaf} (n : Notes) {key : String}
    (hu : P.previous? (l.keys P.name) = some (key, h)) :
    P.view.step P.next (.declare l n) = P.view.unite h (.leaf l) n := by
  rw [step_declare, hu]

theorem view_grow {n : Notes} {d : Content} (hv : P.Valid)
    (hp : P.outline = plug path (.node P.current c m cs)) :
    (plug path (.node P.current c m (cs ++ [.node P.next d n []]))).resolved =
      (P.view.grow P.next d n).outlines :=
  resolved_amend_current { added := [.node P.next d n []] } hv hp rfl

theorem unite_of_compatible (d : Content) (n : Notes) (hv : P.Valid)
    (hp : P.outline = plug path (.node h c m cs)) (hd : c.isDeclaration = true)
    (hc : c.compatible d = true) : P.view.unite h d n =
      ⟨(plug path (.node h (c.absorb d) (m.addComments n.comments) cs)).resolved, P.index, P.entered⟩ := by
  have hr := resolved_amend { content := (·.absorb d), notes := (·.addComments n.comments) } hv hp
    (Or.inl hd) rfl
  rw [View.unite, contentAt_view hv hp hd, Option.any_some, if_pos hc]
  rw [List.append_nil] at hr
  rw [hr]
  rfl

theorem unite_of_incompatible (d : Content) (n : Notes) (hv : P.Valid)
    (hp : P.outline = plug path (.node h c m cs)) (hd : c.isDeclaration = true)
    (hc : c.compatible d = false) : P.view.unite h d n = P.view := by
  rw [View.unite, contentAt_view hv hp hd, Option.any_some, hc]
  rfl

end Draft

variable {o : Options} {P Q : Draft} {e : Event}

/-- One step of a draft is one step of its view. -/
theorem Step.view (hv : P.Valid) (hs : Step o P e Q) : Q.view = P.view.step P.next e := by
  cases hs with
  | newScope s n path c m cs hu hp hc hn =>
      rw [Draft.step_enter hv, hu, Draft.view, Draft.view_grow hv hp]
      rfl
  | knownScope s n path h m cs hu hp =>
      rw [Draft.step_enter_found hv n hu, Draft.unite_of_compatible (.scope s) n hv hp rfl (by simp [Content.compatible])]
      rfl
  | keptHeader s n path h t m cs hu hp hne =>
      rw [Draft.step_enter_found hv n hu, Draft.unite_of_incompatible (.scope s) n hv hp rfl (by simpa [Content.compatible] using hne)]
      rfl
  | contestedHeader s n path q c nq before after h t m cs hu hp hne =>
      have hp' : P.outline = plug (.node q c nq before after :: path) (.node h (.scope t) m cs) := hp
      rw [Draft.step_enter_found hv n hu, Draft.unite_of_incompatible (.scope s) n hv hp' rfl (by simpa [Content.compatible] using hne)]
      rw [Draft.view, Draft.view, hp']
      congr 1
      exact @Outline.resolved_plug _ _ (.node q c nq before after :: path) rfl
  | repeatedHeader s n path q old nq r h t m cs hu hp hne =>
      have hp' : P.outline = plug (.left q .headers old nq r :: path) (.node h (.scope t) m cs) := hp
      rw [Draft.step_enter_found hv n hu, Draft.unite_of_incompatible (.scope s) n hv hp' rfl (by simpa [Content.compatible] using hne)]
      rfl
  | left => rfl
  | newLeaf l n path c m cs hu hp hc hn =>
      rw [Draft.step_declare, hu, Draft.view, Draft.view_grow hv hp]
      rfl
  | unitedLeaf l n path key h l' m cs hu hp hl =>
      rw [Draft.step_declare_found n hu, Draft.unite_of_compatible (.leaf l) n hv hp rfl hl]
      rfl
  | keptLeaf l n path key h c m cs hu hp hl =>
      rw [Draft.step_declare_found n hu, Draft.unite_of_incompatible (.leaf l) n hv hp (hv.mem_keys path hu hp).1 hl]
  | joinedLeaf l n path key q old nq b nb before after h c m cs r nr rs hu hp hl =>
      have hp' : P.outline = plug (.node b .tree nb before after ::
        .left q .declarations old nq (.node r .tree nr rs) :: path) (.node h c m cs) := hp
      rw [Draft.step_declare_found n hu, Draft.unite_of_incompatible (.leaf l) n hv hp' (hv.mem_keys _ hu hp').1 hl]
      rw [Draft.view, Draft.view, hp]
      congr 1
      exact Outline.resolved_plug rfl
  | opposedLeaf l n path key q d nq before after h c m cs hu hp hside hl =>
      have hp' : P.outline = plug (.node q d nq before after :: path) (.node h c m cs) := hp
      rw [Draft.step_declare_found n hu, Draft.unite_of_incompatible (.leaf l) n hv hp' (hv.mem_keys _ hu hp').1 hl]
      rw [Draft.view, Draft.view, hp']
      congr 1
      exact @Outline.resolved_plug _ _ (.node q d nq before after :: path) (by simp [Outline.children])
  | opposedHeaders l n path key q d nq before after k old nk h c m cs r hu hp hl =>
      have hp' : P.outline = plug (.left k .headers old nk r :: .node q d nq before after :: path)
        (.node h c m cs) := hp
      rw [Draft.step_declare_found n hu, Draft.unite_of_incompatible (.leaf l) n hv hp' (hv.mem_keys _ hu hp').1 hl]
      rw [Draft.view, Draft.view, hp]
      congr 1
      exact @Outline.resolved_plug _ _ (.node q d nq before after :: path) (by simp [Outline.children])
  | remarked comments path c m cs hp hn =>
      have hr := Draft.resolved_amend_current { notes := (·.addComments comments) } hv hp rfl
      rw [List.append_nil] at hr
      rw [Draft.view, View.step, View.amend]
      exact congrArg (View.mk · P.index P.entered) hr

end Reconcile.Merge
