import Reconcile.Proofs.Merge.Ledger
import Reconcile.Proofs.Normal.Locations

namespace Reconcile

open Outline

def Content.isBasic : Content → Bool
  | .scope _ | .leaf (.constant ..) | .leaf (.method _) | .leaf (.helper _) => true
  | _ => false

def Scope.isSimple (s : Scope) : Bool :=
  s.name?.all fun name => name.toList.all fun c => c ≠ ':' && c ≠ '<'

def Content.isSimple (c : Content) : Bool := c.scope?.all Scope.isSimple

theorem Scope.not_absolute {s : Scope} {name : String} (hs : s.isSimple = true)
    (hn : s.name? = some name) : isAbsolute name = false := by
  rw [isSimple, hn, Option.all_some, List.all_eq_true] at hs
  unfold isAbsolute
  split
  · next rest hlist => simpa using hs ':' (by rw [hlist]; exact List.mem_cons_self)
  · rfl

theorem Scope.qualify_simple {s : Scope} (hs : s.isSimple = true) (outer : String) :
    s.qualify outer = outer ++ "::" ++ s.name?.getD "<self>" := by
  cases s with
  | singleton =>
      rw [qualify, String.append_assoc]
      rfl
  | moduleNamed name | classNamed name =>
      rw [qualify, not_absolute hs rfl]
      rfl

theorem Scope.outer_eq_of_qualify {s : Scope} (hs : s.isSimple = true) {outer outer' : String}
    (h : s.qualify outer = s.qualify outer') : outer = outer' := by
  rw [qualify_simple hs, qualify_simple hs, String.append_assoc, String.append_assoc] at h
  simpa using h

def slotKey (outer : String) (category : Category) (single : Bool) (name : Option String) : String :=
  match category with
  | .scopesAndConstants => outer ++ "::" ++ name.getD "<self>"
  | .helpers => outer ++ "." ++ name.getD "" ++ "!"
  | _ => outer ++ (if single then "::" else "#") ++ name.getD ""

namespace Content

variable {c : Content}

theorem isDeclaration_of_isBasic (hc : c.isBasic = true) : c.isDeclaration = true := by
  cases c with
  | scope | leaf => rfl
  | tree | visibilityGroup | group => cases hc

theorem keys_of_isBasic (hc : c.isBasic = true) (hs : c.isSimple = true) (outer : String) :
    c.keys outer = [slotKey outer c.category (Kind.plain c).isSingletonMethod c.sortName?] := by
  cases c with
  | tree | visibilityGroup | group => cases hc
  | scope s => rw [keys, Scope.qualify_simple hs]; rfl
  | leaf l =>
      cases l with
      | constant | helper => rfl
      | method m =>
          simp only [keys, Leaf.keys, category, Leaf.category, Kind.isSingletonMethod, sortName?]
          cases m.isInitializer <;> cases m.isSingleton <;> rfl
      | _ => cases hc

end Content

namespace Outline

variable {o : Outline} {c : Content} {cs ms : List Outline} {outer : String}

theorem Plain.container {h : Handle} {n : Notes} (ho : (node h c n cs).Plain)
    (hc : c.isContainer = true) : (c = .tree ∨ ∃ s, c = .scope s) ∧ ∀ x ∈ cs, x.Plain := by
  generalize heq : node h c n cs = o at ho
  cases ho with
  | tree _ _ _ hcs =>
      cases heq
      exact ⟨.inl rfl, hcs⟩
  | scope _ s _ _ hcs =>
      cases heq
      exact ⟨.inr ⟨s, rfl⟩, hcs⟩
  | leaf =>
      cases heq
      cases hc

theorem Plain.normal_of_isSingletonMethod (ho : o.Plain) (hs : o.normal.isSingletonMethod = true) :
    o.normal.Plain := by
  have hkind : o.normal.kind = o.kind := kind_normal _
  have hs : o.normal.kind.isSingletonMethod = true := hs
  rw [hkind] at hs
  obtain ⟨h, l, n, hleaf, -⟩ := ho.leaf_of_isSingletonMethod hs
  rw [hleaf, normal_leaf, ← hleaf]
  exact ho

/-- Siblings are basic declarations with keys of their own. -/
structure Siblings (outer : String) (ms : List Outline) : Prop where
  basic : ∀ x ∈ ms, ∃ c, x.kind = .plain c ∧ c.isBasic = true ∧ c.isSimple = true
  apart : ms.Pairwise fun x y => (x.kind.keys outer).Disjoint (y.kind.keys outer)

namespace Siblings

theorem nodup_map {β : Type} {f : Outline → β} (hs : Siblings outer ms) {p : Outline → Bool}
    (hf : ∀ x y c d, p x = true → p y = true → x.kind = .plain c → y.kind = .plain d → f x = f y →
      c.isBasic = true → d.isBasic = true → c.isSimple = true → d.isSimple = true →
        c.keys outer = d.keys outer) : ((ms.filter p).map f).Nodup := by
  rw [List.Nodup, List.pairwise_map]
  refine (hs.apart.filter p).imp_of_mem fun {x y} hx hy hdis heq => ?_
  obtain ⟨hx, hpx⟩ := List.mem_filter.mp hx
  obtain ⟨hy, hpy⟩ := List.mem_filter.mp hy
  obtain ⟨c, hkx, hbc, hsc⟩ := hs.basic x hx
  obtain ⟨d, hky, hbd, hsd⟩ := hs.basic y hy
  have hkeys := hf x y c d hpx hpy hkx hky heq hbc hbd hsc hsd
  rw [hkx, hky] at hdis
  have hdis : (c.keys outer).Disjoint (d.keys outer) := hdis
  rw [← hkeys, Content.keys_of_isBasic hbc hsc] at hdis
  exact hdis (List.mem_singleton_self _) (List.mem_singleton_self _)

theorem nodup (hs : Siblings outer ms) : ms.Nodup := by
  have h := hs.nodup_map (f := id) (p := fun _ => true) fun x y c d _ _ hx hy heq _ _ _ _ => by
    cases heq
    cases hx.symm.trans hy
    rfl
  simpa using h

theorem nodup_instanceSide (hs : Siblings outer ms) : ((instanceSide ms).map slot).Nodup := by
  refine hs.nodup_map fun x y c d hpx hpy hx hy heq hbc hbd hsc hsd => ?_
  have hsingle {z : Outline} {e : Content} (hp : (!z.isSingletonMethod) = true) (hz : z.kind = .plain e) :
      (Kind.plain e).isSingletonMethod = false := by
    rw [← hz]
    simpa [isSingletonMethod] using hp
  rw [slot, slot, sortKey_of_kind hx, sortKey_of_kind hy, hx, hy, Prod.mk.injEq, SortKey.mk.injEq] at heq
  obtain ⟨hcategory, -, hname⟩ := heq
  have hcategory : c.category = d.category := hcategory
  rw [Content.keys_of_isBasic hbc hsc, Content.keys_of_isBasic hbd hsd, hsingle hpx hx, hsingle hpy hy,
    hcategory, hname]

theorem nodup_singletons (hs : Siblings outer ms) :
    (((ms.filter isSingletonMethod).map clearSingleton).map slot).Nodup := by
  rw [List.map_map]
  refine hs.nodup_map fun x y c d hpx hpy hx hy heq _ _ _ _ => ?_
  obtain ⟨h, m, n, ks, rfl⟩ := leaf_of_isSingletonMethod hpx
  obtain ⟨h', m', n', ks', rfl⟩ := leaf_of_isSingletonMethod hpy
  cases hx
  cases hy
  have hm : m.isSingleton = true := hpx
  have hm' : m'.isSingleton = true := hpy
  have hname : some m.name = some m'.name := congrArg (·.2.name) heq
  rw [Content.keys, Content.keys, Leaf.keys, Leaf.keys, hm, hm', Option.some.inj hname]

end Siblings

end Outline

open Outline

namespace Merge.Draft.Lists

variable {P Q : Draft} {n n' : Notes} {ds ds' : List Entry} {path path' : List Frame} {h k : Handle}
  {c d : Content} {m m' : Notes} {cs ks : List Outline} {x y : Outline}

section

variable (hl : P.Lists n ds) (hv : P.Valid)
include hl hv

theorem node_cases (hx : x ∈ P.outline.subtrees) : x = P.outline ∨
    ∃ e ∈ P.census, ∃ cs, x = .node e.handle e.content e.notes cs ∧ e.content.isDeclaration = true := by
  have hmem := handle_mem_of_subtree hx
  rw [hl.handles.mem_iff, List.mem_cons] at hmem
  rcases hmem with hroot | hmem
  · left
    exact eq_of_handle hv.nodup_outline hx (mem_subtrees_self _) (hroot.trans hv.root.1.symm)
  · obtain ⟨e, he, hh⟩ := List.mem_map.mp hmem
    obtain ⟨path, cs, hp, -, hdecl⟩ := exists_path_of_mem_census he
    have hsub : .node e.handle e.content e.notes cs ∈ P.outline.subtrees := by
      rw [hp]
      exact subtrees_plug path (mem_subtrees_self _)
    exact Or.inr ⟨e, he, cs, eq_of_handle hv.nodup_outline hx hsub hh.symm, hdecl⟩

theorem conflictFree : P.outline.conflictFree = true := by
  apply conflictFree_of_content
  intro x hx
  rcases hl.node_cases hv hx with rfl | ⟨e, -, cs, rfl, -⟩
  · rw [hv.root.2]
    exact nofun
  · exact nofun

theorem content_cases (hp : P.outline = plug path (.node h c m cs)) :
    c.isDeclaration = true ∨ c = .tree ∧ path = [] := by
  have hsub : .node h c m cs ∈ P.outline.subtrees := by
    rw [hp]
    exact subtrees_plug path (mem_subtrees_self _)
  rcases hl.node_cases hv hsub with heq | ⟨e, -, ks, heq, hdecl⟩
  · right
    have hroot := hv.root.2
    rw [← heq] at hroot
    cases hroot
    rw [← heq] at hp
    exact ⟨rfl, eq_nil_of_plug hp.symm⟩
  · left
    cases heq
    exact hdecl

theorem exists_node (hp : P.outline = plug path x) : ∃ h c m cs, x = .node h c m cs := by
  have hsub : x ∈ P.outline.subtrees := by
    rw [hp]
    exact subtrees_plug path (mem_subtrees_self _)
  cases x with
  | node h c m cs => exact ⟨h, c, m, cs, rfl⟩
  | conflict =>
      rcases hl.node_cases hv hsub with heq | ⟨_, -, _, heq, -⟩
      · have hroot := hv.root.2
        rw [← heq] at hroot
        cases hroot
      · cases heq

theorem container_unique (hp : P.outline = plug path (.node h c m cs))
    (hp' : P.outline = plug path' (.node k d m' ks)) (hc : c.isContainer = true)
    (hd : d.isContainer = true) (hq : c.qualify (pathName "" path) = d.qualify (pathName "" path')) :
    Outline.node h c m cs = .node k d m' ks := by
  have hsub : .node h c m cs ∈ P.outline.subtrees := by
    rw [hp]
    exact subtrees_plug path (mem_subtrees_self _)
  have hsub' : .node k d m' ks ∈ P.outline.subtrees := by
    rw [hp']
    exact subtrees_plug path' (mem_subtrees_self _)
  have scope {c : Content} (hc : c.isContainer = true) (hdecl : c.isDeclaration = true) :
      ∃ s, c = .scope s := by
    cases c with
    | scope s => exact ⟨s, rfl⟩
    | leaf => cases hc
    | tree | visibilityGroup | group => cases hdecl
  rcases hl.content_cases hv hp with hdecl | ⟨rfl, rfl⟩
  · obtain ⟨s, rfl⟩ := scope hc hdecl
    rcases hl.content_cases hv hp' with hdecl' | ⟨rfl, rfl⟩
    · obtain ⟨t, rfl⟩ := scope hd hdecl'
      have he := mem_census_of_plug path hp rfl
      have he' := mem_census_of_plug path' hp' rfl
      have hsame : (⟨h, pathName "" path, .scope s, m⟩ : Entry) = ⟨k, pathName "" path', .scope t, m'⟩ := by
        by_contra hne
        refine hl.apart.forall he he' hne (List.mem_singleton_self _) ?_
        exact List.mem_singleton.mpr hq
      exact eq_of_handle hv.nodup_outline hsub hsub' (congrArg Entry.handle hsame)
    · exact absurd hq (s.qualify_ne_empty _)
  · rcases hl.content_cases hv hp' with hdecl' | ⟨rfl, rfl⟩
    · obtain ⟨t, rfl⟩ := scope hd hdecl'
      exact absurd hq.symm (t.qualify_ne_empty _)
    · exact hp.symm.trans hp'

theorem exists_child (hp : P.outline = plug path (.node h c m cs)) (hc : c.isContainer = true)
    {e : Entry} (he : e ∈ P.census) (hq : e.outer = c.qualify (pathName "" path)) :
    ∃ ks, .node e.handle e.content e.notes ks ∈ cs := by
  obtain ⟨path', ks, hp', hname, hdecl⟩ := exists_path_of_mem_census he
  obtain ⟨fr, rest, rfl⟩ := hv.standing.exists_frame hp' hdecl
  have hadmits := admits_of_sound (hp' ▸ hv.sound)
  rw [plug] at hp'
  obtain ⟨_, _, _, _, hfill⟩ := hl.exists_node hv hp'
  cases fr with
  | left => cases hfill
  | node k d m' before after =>
      have hd : d.isContainer = true := hadmits
      cases hl.container_unique hv hp hp' hc hd (hq.symm.trans hname.symm)
      exact ⟨ks, List.mem_append_right _ List.mem_cons_self⟩

theorem exists_entry (hp : P.outline = plug path (.node h c m cs)) (hx : x ∈ cs) :
    ∃ e ∈ P.census, ∃ ks path', x = .node e.handle e.content e.notes ks ∧
      e.outer = c.qualify (pathName "" path) ∧ P.outline = plug path' x ∧ pathName "" path' = e.outer := by
  obtain ⟨before, after, rfl⟩ := List.append_of_mem hx
  have hp' : P.outline = plug (.node h c m before after :: path) x := hp
  obtain ⟨k, d, m', ks, rfl⟩ := hl.exists_node hv hp'
  rcases hl.content_cases hv hp' with hdecl | ⟨-, hnil⟩
  · exact ⟨_, mem_census_of_plug _ hp' hdecl, ks, _, rfl, rfl, hp', rfl⟩
  · cases hnil

variable (hb : ∀ e ∈ P.census, e.content.isBasic = true ∧ e.content.isSimple = true)
include hb

theorem plain_gist (hp : P.outline = plug path x) : x.gist.Plain := by
  induction x generalizing path with
  | conflict =>
      obtain ⟨_, _, _, _, heq⟩ := hl.exists_node hv hp
      cases heq
  | node h c m cs ih =>
      have hcs : ∀ x ∈ cs.map gist, x.Plain := by
        intro x hx
        obtain ⟨y, hy, rfl⟩ := List.mem_map.mp hx
        obtain ⟨-, -, -, path', -, -, hp', -⟩ := hl.exists_entry hv hp hy
        exact ih y hy hp'
      rw [gist_node]
      rcases hl.content_cases hv hp with hdecl | ⟨rfl, -⟩
      · have hbasic := (hb _ (mem_census_of_plug path hp hdecl)).1
        cases c with
        | tree | visibilityGroup | group => cases hdecl
        | scope s => exact .scope 0 s _ _ hcs
        | leaf l =>
            have hsound := sound_of_plug (hp ▸ hv.sound)
            rw [sound_node] at hsound
            cases hsound.1.resolve_left (by simp [Content.isContainer])
            refine .leaf 0 l _ ?_
            rintro v rfl
            cases hbasic
      · exact .tree 0 _ _ hcs

theorem siblings (hp : P.outline = plug path (.node h c m cs)) :
    Siblings (c.qualify (pathName "" path)) (cs.map fun x => x.gist.normal) := by
  have hkind {x : Outline} (hx : x ∈ cs) : ∃ e ∈ P.census, x.gist.normal.kind = .plain e.content ∧
      e ∈ x.census (c.qualify (pathName "" path)) ∧ e.outer = c.qualify (pathName "" path) := by
    obtain ⟨e, he, ks, -, rfl, ho, hp', hname⟩ := hl.exists_entry hv hp hx
    refine ⟨e, he, ?_, ?_, ho⟩
    · rw [kind_normal, gist_node]
      rfl
    · rw [← ho, census_node, ownEntry, if_pos (Outline.isDeclaration_of_census he)]
      exact List.mem_cons_self
  constructor
  · intro x hx
    obtain ⟨y, hy, rfl⟩ := List.mem_map.mp hx
    obtain ⟨e, he, hk, -, -⟩ := hkind hy
    exact ⟨e.content, hk, hb e he⟩
  · obtain ⟨pre, post, hcensus⟩ := census_plug "" path
    have hapart := hl.apart
    rw [Draft.census, hp, hcensus, census_node] at hapart
    have hbelow := (List.pairwise_append.mp (List.pairwise_append.mp
      (List.pairwise_append.mp hapart).1).2.1).2.1
    rw [List.pairwise_flatMap] at hbelow
    rw [List.pairwise_map]
    refine hbelow.2.imp_of_mem fun {x y} hx hy hxy => ?_
    obtain ⟨e, -, hk, hmem, ho⟩ := hkind hx
    obtain ⟨e', -, hk', hmem', ho'⟩ := hkind hy
    have hdis : e.Apart e' := hxy e hmem e' hmem'
    rw [hk, hk']
    rw [Entry.Apart, Entry.keys, Entry.keys, ho, ho'] at hdis
    exact hdis

end

theorem exists_partner (hl : P.Lists n ds) (hv : P.Valid) (hl' : Q.Lists n' ds') (hv' : Q.Valid)
    (hsub : P.census.map Entry.gist ⊆ Q.census.map Entry.gist)
    (hp : P.outline = plug path (.node h c m cs)) (hp' : Q.outline = plug path' (.node k c m' ks))
    (hname : pathName "" path = pathName "" path') (hc : c.isContainer = true) (hx : x ∈ cs) :
    ∃ y ∈ ks, ∃ way way', P.outline = plug way x ∧ Q.outline = plug way' y ∧
      x.content? = y.content? ∧ pathName "" way = pathName "" way' ∧
        x.notes.comments = y.notes.comments := by
  obtain ⟨e, he, xs, way, rfl, ho, hw, hwo⟩ := hl.exists_entry hv hp hx
  obtain ⟨e', he', hg⟩ := List.mem_map.mp (hsub (List.mem_map_of_mem he))
  obtain ⟨houter, hcontent, hcomments⟩ := Entry.eq_of_gist hg
  obtain ⟨ys, hy⟩ := hl'.exists_child hv' hp' hc he' (by rw [houter, ho, hname])
  obtain ⟨e₂, -, zs, way', -, ho', hw', hwo'⟩ := hl'.exists_entry hv' hp' hy
  refine ⟨_, hy, way, way', hw, hw', ?_, ?_, hcomments.symm⟩
  · exact congrArg some hcontent.symm
  · rw [hwo, hwo', ho, ho', hname]

/-- Two drafts that declare the same have the same normal form, up to handles and locations. -/
theorem gist_normal_eq (hl : P.Lists n ds) (hv : P.Valid) (hl' : Q.Lists n' ds') (hv' : Q.Valid)
    (hb : ∀ e ∈ P.census, e.content.isBasic = true ∧ e.content.isSimple = true)
    (hsame : ∀ e, e ∈ P.census.map Entry.gist ↔ e ∈ Q.census.map Entry.gist)
    (hx : P.outline = plug path x) (hy : Q.outline = plug path' y)
    (hcontent : x.content? = y.content?) (hname : pathName "" path = pathName "" path')
    (hnotes : x.notes.comments = y.notes.comments) : x.gist.normal = y.gist.normal := by
  have hb' : ∀ e ∈ Q.census, e.content.isBasic = true ∧ e.content.isSimple = true := by
    intro e he
    obtain ⟨e', he', hg⟩ := List.mem_map.mp ((hsame _).mpr (List.mem_map_of_mem he))
    rw [← (Entry.eq_of_gist hg).2.1]
    exact hb e' he'
  -- The induction follows the first draft down from a node that the second one has too.
  induction x generalizing path path' y with
  | conflict =>
      obtain ⟨_, _, _, _, heq⟩ := hl.exists_node hv hx
      cases heq
  | node h c m cs ih =>
      obtain ⟨k, d, m', ks, rfl⟩ := hl'.exists_node hv' hy
      have hcd : c = d := Option.some.inj hcontent
      subst hcd
      have hunlocated : m.unlocated = m'.unlocated := congrArg (Notes.mk · none) hnotes
      have hplain := hl.plain_gist hv hb hx
      have hplain' := hl'.plain_gist hv' hb' hy
      rw [gist_node] at hplain hplain'
      cases hc : c.isContainer with
      | false =>
          cases c with
          | tree | scope | visibilityGroup | group => cases hc
          | leaf l =>
              have hsound := sound_of_plug (hx ▸ hv.sound)
              have hsound' := sound_of_plug (hy ▸ hv'.sound)
              rw [sound_node] at hsound hsound'
              cases hsound.1.resolve_left (by simp [Content.isContainer])
              cases hsound'.1.resolve_left (by simp [Content.isContainer])
              rw [gist_node, gist_node, hunlocated]
      | true =>
          obtain ⟨hbody, hcs⟩ := hplain.container hc
          obtain ⟨-, hks⟩ := hplain'.container hc
          have hmem (z : Outline) :
              z ∈ cs.map (fun x => x.gist.normal) ↔ z ∈ ks.map fun x => x.gist.normal := by
            constructor
            · intro hz
              obtain ⟨x, hxm, rfl⟩ := List.mem_map.mp hz
              obtain ⟨y, hym, way, way', hw, hw', hcont, hn, hcomm⟩ := exists_partner hl hv hl' hv'
                (fun e => (hsame e).mp) hx hy hname hc hxm
              rw [ih x hxm hw hw' hcont hn hcomm]
              exact List.mem_map_of_mem hym
            · intro hz
              obtain ⟨y, hym, rfl⟩ := List.mem_map.mp hz
              obtain ⟨x, hxm, way, way', hw, hw', hcont, hn, hcomm⟩ := exists_partner hl' hv' hl hv
                (fun e => (hsame e).mpr) hy hx hname.symm hc hym
              rw [← ih x hxm hw' hw hcont.symm hn.symm hcomm.symm]
              exact List.mem_map_of_mem hxm
          have hsiblings := hl.siblings hv hb hx
          have hperm := (List.perm_ext_iff_of_nodup hsiblings.nodup (hl'.siblings hv' hb' hy).nodup).mpr
            hmem
          rw [gist_node, gist_node, hunlocated, normal_container hbody hcs, normal_container hbody hks,
            List.map_map, List.map_map]
          refine congrArg (node 0 c m'.unlocated) (assembled_eq_of_perm ?_ hperm
            hsiblings.nodup_instanceSide hsiblings.nodup_singletons)
          intro z hz hsingle
          obtain ⟨x, hxm, rfl⟩ := List.mem_map.mp hz
          exact (hcs _ (List.mem_map_of_mem hxm)).normal_of_isSingletonMethod hsingle

end Merge.Draft.Lists

end Reconcile
