import Reconcile.Proofs.Merge.Equivalence
import Reconcile.Proofs.Normal.Idempotence

namespace Reconcile

open Outline (plug)

def Kind.isBasic : Kind → Bool
  | plain c => c.isBasic
  | conflict .. => false

namespace Forest

/-- All that can be reached from the root are scopes, constants, methods and helpers. -/
def Basic (f : Forest) : Prop :=
  ∃ o, f.outline root = .ok o ∧ ∀ h ∈ o.descendants, ∃ k, f.kind h = .ok k ∧ k.isBasic = true

/-- No scope that can be reached from the root has a colon or an angle bracket in its name. -/
def SimplyNamed (f : Forest) : Prop :=
  ∃ o, f.outline root = .ok o ∧ ∀ h ∈ o.handles, ∀ s, f.kind h = .ok (.plain (.scope s)) →
    s.isSimple = true

/-- No leaf of the first tree has an identity key in common with a node of the second one. -/
def LeavesApart (f g : Forest) : Prop :=
  ∃ o o', f.outline root = .ok o ∧ g.outline root = .ok o' ∧ ∀ h ∈ o.handles, ∀ k ∈ o'.handles,
    ∀ a, f.kind h = .ok a → a.isLeaf = true → f.NodesApart g h k

/-- If two nodes are scopes of one qualified name, they have compatible headers and equal comments. -/
def HeadersAgree (f g : Forest) (h k : Handle) : Prop :=
  ∀ n m name, f.get h = .ok n → g.get k = .ok m → n.kind.isScope = true → m.kind.isScope = true →
    f.qualifiedName h = .ok name → g.qualifiedName k = .ok name →
      n.kind.compatible m.kind = true ∧ n.notes.comments = m.notes.comments

/-- The scopes of two trees agree, and so do the comments on their roots. -/
def ScopesAgree (f g : Forest) : Prop :=
  ∃ o o', f.outline root = .ok o ∧ g.outline root = .ok o' ∧ o.notes.comments = o'.notes.comments ∧
    ∀ h ∈ o.handles, ∀ k ∈ o'.handles, f.HeadersAgree g h k

instance (f : Forest) : Decidable f.Basic :=
  decidable_of_iff (∃ o ∈ (f.outline root).toOption, ∀ h ∈ o.descendants,
    ∃ k ∈ (f.kind h).toOption, k.isBasic = true) (by simp only [mem_toOption, Basic])

instance (f : Forest) : Decidable f.SimplyNamed :=
  decidable_of_iff (∃ o ∈ (f.outline root).toOption, ∀ h ∈ o.handles, ∀ k ∈ (f.kind h).toOption,
    ∀ s ∈ k.scope?, s.isSimple = true)
    (by simp only [mem_toOption, Kind.mem_scope?_iff, SimplyNamed]; grind)

instance (f g : Forest) : Decidable (f.LeavesApart g) :=
  decidable_of_iff (∃ o ∈ (f.outline root).toOption, ∃ o' ∈ (g.outline root).toOption,
    ∀ h ∈ o.handles, ∀ k ∈ o'.handles, ∀ a ∈ (f.kind h).toOption, a.isLeaf = true →
      f.NodesApart g h k) (by simp only [mem_toOption, LeavesApart]; grind)

instance (f g : Forest) (h k : Handle) : Decidable (f.HeadersAgree g h k) :=
  decidable_of_iff (∀ n ∈ (f.get h).toOption, ∀ m ∈ (g.get k).toOption, n.kind.isScope = true →
    m.kind.isScope = true → ∀ name ∈ (f.qualifiedName h).toOption,
      name ∈ (g.qualifiedName k).toOption →
        n.kind.compatible m.kind = true ∧ n.notes.comments = m.notes.comments)
    (by simp only [mem_toOption, HeadersAgree]; grind)

instance (f g : Forest) : Decidable (f.ScopesAgree g) :=
  decidable_of_iff (∃ o ∈ (f.outline root).toOption, ∃ o' ∈ (g.outline root).toOption,
    o.notes.comments = o'.notes.comments ∧ ∀ h ∈ o.handles, ∀ k ∈ o'.handles, f.HeadersAgree g h k)
    (by simp only [mem_toOption, ScopesAgree]; grind)

variable {f g : Forest} {o o' : Outline} {e d : Entry}

theorem ScopesAgree.symm (h : f.ScopesAgree g) : g.ScopesAgree f := by
  obtain ⟨o, o', ho, ho', hroot, h⟩ := h
  refine ⟨o', o, ho', ho, hroot.symm, fun k hk h' hh m n name hm hn hsm hsn hq hq' => ?_⟩
  obtain ⟨hcomp, hcomments⟩ := h h' hh k hk n m name hn hm hsn hsm hq' hq
  refine ⟨?_, hcomments.symm⟩
  cases hkn : n.kind with
  | conflict => simp [hkn, Kind.isScope, Kind.scope?] at hsn
  | plain c =>
      cases hkm : m.kind with
      | conflict => simp [hkm, Kind.isScope, Kind.scope?] at hsm
      | plain d =>
          rw [hkn, hkm] at hcomp
          exact (Content.compatible_comm d c).trans hcomp

namespace Shows

theorem same_of_gist (hf : f.Shows o) (hg : g.Shows o') (h : o.gist = o'.gist) :
    f.same Forest.root g Forest.root = .ok true := by
  simp only [Forest.same, hf.outline, hg.outline, bind, Except.bind, Outline.same_of_gist h]
  rfl

theorem exists_normal (hf : f.Shows o) : ∃ f' o', f.normalize = .ok f' ∧ f'.Shows o' ∧
    o'.gist = o.gist.normal := by
  obtain ⟨f', o', he, hf', hforget⟩ := hf.runPasses Pass.canonical
  have hnormal : o'.forget = o.forget.normal := hforget
  refine ⟨f', o', he, hf', ?_⟩
  rw [Outline.gist, hnormal, Outline.unlocated_normal, ← Outline.gist]

section

variable (hf : f.Shows o)
include hf

theorem get_of_mem (he : e ∈ o.census "") :
    ∃ n, f.get e.handle = .ok n ∧ n.kind = .plain e.content ∧ n.notes = e.notes := by
  obtain ⟨path, cs, rfl, -, -⟩ := Outline.exists_path_of_mem_census he
  have hholds := hf.holds
  rw [holds_plug, Outline.holds_node] at hholds
  exact ⟨_, get_of_look hholds.2.1, rfl, rfl⟩

theorem qualifiedName_of_mem (he : e ∈ o.census "") :
    f.qualifiedName e.handle = .ok (e.content.qualify e.outer) := by
  obtain ⟨path, cs, rfl, hname, -⟩ := Outline.exists_path_of_mem_census he
  rw [qualifiedName_of_holds hf.holds hf.nodup, hname]

theorem basic_content (hb : f.Basic) {x : Outline} (hx : x ∈ o.subtrees) (hne : x ≠ o) :
    ∃ c, x.content? = some c ∧ c.isBasic = true := by
  obtain ⟨o', ho', hb⟩ := hb
  cases hf.outline.symm.trans ho'
  have hmem : x.handle ∈ o.handle :: o.descendants := Outline.handle_mem_of_subtree hx
  rcases List.mem_cons.mp hmem with hroot | hmem
  · exact absurd (Outline.eq_of_handle hf.nodup hx (Outline.mem_subtrees_self o) hroot) hne
  · obtain ⟨k, hk, hbasic⟩ := hb _ hmem
    obtain ⟨parent, hholds⟩ := hf.holds.of_mem_subtrees hx
    cases hholds.kind.symm.trans hk
    cases x with
    | node h c n cs => exact ⟨c, rfl, hbasic⟩
    | conflict => cases hbasic

theorem basic_of_mem (hb : f.Basic) (hs : f.SimplyNamed) (he : e ∈ o.census "") :
    e.content.isBasic = true ∧ e.content.isSimple = true := by
  constructor
  · obtain ⟨path, cs, hp, -, hdecl⟩ := Outline.exists_path_of_mem_census he
    have hsub : .node e.handle e.content e.notes cs ∈ o.subtrees := by
      rw [hp]
      exact Outline.subtrees_plug path (Outline.mem_subtrees_self _)
    obtain ⟨c, hc, hbasic⟩ := hf.basic_content hb hsub fun heq => by
      have htree := hf.tree
      rw [← heq] at htree
      rw [Option.some.inj htree] at hdecl
      cases hdecl
    cases hc
    exact hbasic
  · obtain ⟨o', ho', hs⟩ := hs
    cases hf.outline.symm.trans ho'
    cases hc : e.content with
    | scope s =>
        have hk := hf.kind_of_mem he
        rw [hc] at hk
        exact hs _ (Outline.handle_mem_of_census he) s hk
    | tree | visibilityGroup | group | leaf => rfl

theorem exists_keyed_of_basic (hb : f.Basic) (hs : f.SimplyNamed) :
    ∃ n cs, o = .node Forest.root .tree n cs ∧ ∀ x ∈ cs, x.Keyed "" := by
  have hroot := hf.root
  have htree := hf.tree
  cases o with
  | conflict => cases htree
  | node h c n cs =>
      cases htree
      cases hroot
      refine ⟨n, cs, rfl, fun x hx => ⟨fun y hy => ?_, fun e he => ?_⟩⟩
      · have hsub : y ∈ (Outline.node Forest.root .tree n cs).subtrees := by
          rw [Outline.subtrees_node]
          exact List.mem_cons_of_mem _ (List.mem_flatMap.mpr ⟨x, hx, hy⟩)
        have hmem : y.handle ∈ cs.flatMap Outline.handles :=
          List.mem_flatMap.mpr ⟨x, hx, Outline.handle_mem_of_subtree hy⟩
        have hnodup := hf.nodup
        rw [Outline.handles_node, List.nodup_cons] at hnodup
        obtain ⟨c, hc, hbasic⟩ := hf.basic_content hb hsub fun heq => by
          rw [heq] at hmem
          exact hnodup.1 hmem
        exact ⟨c, hc, Content.isDeclaration_of_isBasic hbasic⟩
      · have hmem : e ∈ (Outline.node Forest.root .tree n cs).census "" := by
          rw [Outline.census_node]
          exact List.mem_append_right _ (List.mem_flatMap.mpr ⟨x, hx, he⟩)
        obtain ⟨hbasic, hsimple⟩ := hf.basic_of_mem hb hs hmem
        rw [Entry.keys, Content.keys_of_isBasic hbasic hsimple]
        exact List.cons_ne_nil _ _

end

end Shows

end Forest

namespace Merge

variable {A B : Forest} {TA TB : Outline} {e d : Entry}

theorem coexist (hA : A.Shows TA) (hB : B.Shows TB) (hlAB : A.LeavesApart B) (hlBA : B.LeavesApart A)
    (hs : A.ScopesAgree B) (hn : A.SimplyNamed) (hb : A.Basic) (he : e ∈ TA.census "")
    (hd : d ∈ TB.census "") : e.Coexist d := by
  have apart {A B : Forest} {TA TB : Outline} {e d : Entry} (hA : A.Shows TA) (hB : B.Shows TB)
      (hl : A.LeavesApart B) (he : e ∈ TA.census "") (hd : d ∈ TB.census "") {l : Leaf}
      (hc : e.content = .leaf l) : e.Apart d := by
    obtain ⟨o, o', ho, ho', hl⟩ := hl
    cases hA.outline.symm.trans ho
    cases hB.outline.symm.trans ho'
    exact hl _ (Outline.handle_mem_of_census he) _ (Outline.handle_mem_of_census hd) _
      (hA.kind_of_mem he) (by rw [hc]; rfl) _ _ (hA.keys_of_mem he) (hB.keys_of_mem hd)
  rcases Outline.leaf_or_scope_of_census he with ⟨l, hce⟩ | ⟨s, hce⟩
  · exact Or.inl (apart hA hB hlAB he hd hce)
  rcases Outline.leaf_or_scope_of_census hd with ⟨l, hcd⟩ | ⟨t, hcd⟩
  · exact Or.inl (List.disjoint_symm (apart hB hA hlBA hd he hcd))
  by_cases hq : s.qualify e.outer = t.qualify d.outer
  · right
    obtain ⟨o, o', ho, ho', -, hs⟩ := hs
    cases hA.outline.symm.trans ho
    cases hB.outline.symm.trans ho'
    obtain ⟨m, hm, hkm, hnm⟩ := hA.get_of_mem he
    obtain ⟨m', hm', hkm', hnm'⟩ := hB.get_of_mem hd
    have hqe := hA.qualifiedName_of_mem he
    have hqd := hB.qualifiedName_of_mem hd
    rw [hce] at hkm hqe
    rw [hcd] at hkm' hqd
    obtain ⟨hcomp, hcomments⟩ := hs _ (Outline.handle_mem_of_census he) _
      (Outline.handle_mem_of_census hd) m m' _ hm hm' (by rw [hkm]; rfl) (by rw [hkm']; rfl) hqe
      (hqd.trans (congrArg Except.ok hq.symm))
    rw [hkm, hkm'] at hcomp
    have hst : s = t := of_decide_eq_true hcomp
    subst hst
    have hsimple := (hA.basic_of_mem hb hn he).2
    rw [hce] at hsimple
    have houter : e.outer = d.outer := Scope.outer_eq_of_qualify hsimple hq
    rw [hnm, hnm'] at hcomments
    refine ⟨?_, s, hcd⟩
    rw [Entry.gist, Entry.gist, hce, hcd, houter, Notes.unlocated, Notes.unlocated, hcomments]
  · left
    rw [Entry.Apart, Entry.keys, Entry.keys, hce, hcd]
    intro key hk hk'
    exact hq ((List.mem_singleton.mp hk).symm.trans (List.mem_singleton.mp hk'))

theorem exists_listed_merge (labels : Labels) (hA : A.Shows TA) (hB : B.Shows TB) (hbA : A.Basic)
    (hbB : B.Basic) (hnA : A.SimplyNamed) (hnB : B.SimplyNamed) (hdA : A.DuplicateFree)
    (hdB : B.DuplicateFree) (hc : ∀ d ∈ TB.census "", ∀ e ∈ TA.census "", e.Coexist d) :
    ∃ (out : Output) (Q : Draft) (n : Notes), mergeAll ⟨labels, .both⟩ [A, B] = .ok out ∧
      out.forest.Shows Q.outline ∧ Q.Valid ∧ Q.Lists n (TA.census "" ++ TB.census "") ∧
        n.comments = union (union [] TA.notes.comments) TB.notes.comments := by
  obtain ⟨n, cs, hTA, hkA⟩ := hA.exists_keyed_of_basic hbA hnA
  obtain ⟨m, ds, hTB, hkB⟩ := hB.exists_keyed_of_basic hbB hnB
  have hfirst : Reads [] (TA.census "") := ⟨hA.pairwise_apart hdA, fun _ _ _ he => nomatch he⟩
  obtain ⟨P, hrun, hv, he, hl⟩ := exists_runs_lists_tree (o := ⟨labels, .both⟩) hTA hA.sound hkA
    Draft.valid_empty rfl Draft.lists_empty hfirst
  rw [List.nil_append] at hl
  obtain ⟨Q, hrun', hv', -, hl'⟩ := exists_runs_lists_tree (o := ⟨labels, .both⟩) hTB hB.sound hkB hv he
    hl ⟨hB.pairwise_apart hdB, hc⟩
  have hreadings : readings [A, B] = .ok [TA, TB] :=
    readings_cons hA.outline (readings_cons hB.outline rfl)
  have hfree {T : Outline} {n : Notes} {cs : List Outline} (hT : T = .node Forest.root .tree n cs)
      (hk : ∀ x ∈ cs, x.Keyed "") : T.conflictFree = true := by
    rw [hT, Outline.conflictFree_node]
    exact fun x hx => (hk x hx).conflictFree
  have hruns : Runs ⟨labels, .both⟩ .empty ([TA, TB].flatMap (Outline.script "")) Q := by
    simpa using hrun.append hrun'
  obtain ⟨out, O, h⟩ := hruns.exists_outcome hreadings (by simp [hfree hTA hkA, hfree hTB hkB])
  -- There are no conflicts to coalesce.
  have hO : O = Q.outline := h.coalesces.plain (hl'.conflictFree hv')
  subst hO
  refine ⟨out, Q, _, h.merged, ⟨h.holds, h.nodup, hv'.sound, h.root.1, h.root.2⟩, hv', hl', ?_⟩
  rw [hTA, hTB]
  rfl

/-- Two trees of basic declarations can be merged in either order. If they are free of duplicates,
their leaves are apart from each other and their scopes agree, the normal forms of both outputs are
the same up to handles and locations. -/
theorem normalize_merge_comm (A B : Forest) (hwA : A.WellFormed) (hwB : B.WellFormed) (hbA : A.Basic)
    (hbB : B.Basic) (hdA : A.DuplicateFree) (hdB : B.DuplicateFree) (hnA : A.SimplyNamed)
    (hnB : B.SimplyNamed) (hlA : A.LeavesApart B) (hlB : B.LeavesApart A) (hs : A.ScopesAgree B)
    (labels labels' : Labels) : ∃ ab ba f g, mergeAll ⟨labels, .both⟩ [A, B] = .ok ab ∧
      mergeAll ⟨labels', .both⟩ [B, A] = .ok ba ∧ ab.forest.normalize = .ok f ∧
        ba.forest.normalize = .ok g ∧ f.same Forest.root g Forest.root = .ok true := by
  obtain ⟨TA, hA⟩ := hwA.exists_shows
  obtain ⟨TB, hB⟩ := hwB.exists_shows
  obtain ⟨ab, P, n, hab, hshowsP, hvP, hlP, hn⟩ := exists_listed_merge labels hA hB hbA hbB hnA hnB hdA
    hdB fun d hd e he => coexist hA hB hlA hlB hs hnA hbA he hd
  obtain ⟨ba, Q, m, hba, hshowsQ, hvQ, hlQ, hm⟩ := exists_listed_merge labels' hB hA hbB hbA hnB hnA hdB
    hdA fun d hd e he => coexist hB hA hlB hlA hs.symm hnB hbB he hd
  obtain ⟨f, x, hf, hshowsF, hx⟩ := hshowsP.exists_normal
  obtain ⟨g, y, hg, hshowsG, hy⟩ := hshowsQ.exists_normal
  have hbasic : ∀ e ∈ P.census, e.content.isBasic = true ∧ e.content.isSimple = true := by
    intro e he
    obtain ⟨d, hd, hgist⟩ := hlP.exists_listed he
    rw [← (Entry.eq_of_gist hgist).2.1]
    rcases List.mem_append.mp hd with hd | hd
    · exact hA.basic_of_mem hbA hnA hd
    · exact hB.basic_of_mem hbB hnB hd
  have hsame (e : Entry) : e ∈ P.census.map Entry.gist ↔ e ∈ Q.census.map Entry.gist := by
    rw [hlP.declared, hlQ.declared, List.map_append, List.map_append, List.mem_append, List.mem_append,
      or_comm]
  have hcomments : P.outline.notes.comments = Q.outline.notes.comments := by
    obtain ⟨o, o', ho, ho', hroot, -⟩ := hs
    cases hA.outline.symm.trans ho
    cases hB.outline.symm.trans ho'
    rw [hlP.notes, hlQ.notes, hn, hm, hroot]
  have hplug : P.outline = plug [] P.outline ∧ Q.outline = plug [] Q.outline := ⟨rfl, rfl⟩
  have hnormal : P.outline.gist.normal = Q.outline.gist.normal :=
    hlP.gist_normal_eq hvP hlQ hvQ hbasic hsame hplug.1 hplug.2 (hvP.root.2.trans hvQ.root.2.symm) rfl
      hcomments
  exact ⟨ab, ba, f, g, hab, hba, hf, hg, hshowsF.same_of_gist hshowsG (hx.trans (hnormal.trans hy.symm))⟩

def sampleLeft : Forest :=
  ⟨#[{ kind := .plain .tree, notes := { comments := ["top"] }, children := [1] },
    { kind := .plain (.scope (.moduleNamed "M")), notes := { comments := ["m"] }, parent := some 0,
      children := [2, 3, 4, 5] },
    { kind := .plain (.leaf (.method { name := "b" })), parent := some 1 },
    { kind := .plain (.leaf (.constant "X" "1")), parent := some 1 },
    { kind := .plain (.scope (.classNamed "C" none)), parent := some 1 },
    { kind := .plain (.leaf (.method { name := "d", isSingleton := true })), parent := some 1 }]⟩

def sampleRight : Forest :=
  ⟨#[{ kind := .plain .tree, notes := { comments := ["top"] }, children := [1] },
    { kind := .plain (.scope (.moduleNamed "M")),
      notes := { comments := ["m"], location := some { file := some "m.rb" } }, parent := some 0,
      children := [2, 3, 4] },
    { kind := .plain (.leaf (.helper "abstract")), parent := some 1 },
    { kind := .plain (.leaf (.method { name := "a", visibility := .priv })), parent := some 1 },
    { kind := .plain (.leaf (.method { name := "c", isSingleton := true })), parent := some 1 }]⟩

theorem normalize_merge_comm_sample : ∃ ab ba f g, mergeAll {} [sampleLeft, sampleRight] = .ok ab ∧
    mergeAll {} [sampleRight, sampleLeft] = .ok ba ∧ ab.forest.normalize = .ok f ∧
      ba.forest.normalize = .ok g ∧ f.same Forest.root g Forest.root = .ok true :=
  normalize_merge_comm sampleLeft sampleRight (by decide) (by decide) (by decide) (by decide) (by decide)
    (by decide) (by decide) (by decide) (by decide) (by decide) (by decide) ⟨"left", "right"⟩
    ⟨"left", "right"⟩

end Merge

end Reconcile
