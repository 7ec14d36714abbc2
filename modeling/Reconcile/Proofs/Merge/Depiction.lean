import Reconcile.Proofs.Merge.Effect
import Reconcile.Proofs.Merge.Progress

namespace Reconcile.Merge

open Outline (plug)

structure State.Depicts (s : State) (P : Draft) : Prop where
  outline : P.outline.Holds s.forest.look none
  loose : ∀ o ∈ P.loose, o.Holds s.forest.look none
  size : s.forest.size = P.next
  index : s.index = P.index
  entered : s.entered = P.entered.map (·.1)
  conflicts : s.conflicts = P.conflicts

namespace State.Depicts

variable {s : State} {P : Draft} {path : List Frame} {x y : Outline} {f' : Forest} {j : Nat}
  {index : Index} {entered : List (Handle × String)} {conflicts : List Conflict}

theorem empty : ({} : State).Depicts .empty where
  outline := by simp [Draft.empty, Forest.empty, Forest.look, Forest.root]
  loose := by simp [Draft.empty]
  size := rfl
  index := rfl
  entered := rfl
  conflicts := rfl

theorem part (hd : s.Depicts P) (hv : P.Standing) (hp : P.outline = plug path x) :
    x.Holds s.forest.look (parentOf none path) ∧ x.handles.Nodup := by
  have ho := hd.outline
  have hn := hv.nodup_outline
  rw [hp] at ho hn
  exact ⟨((holds_plug path x).mp ho).2, (Outline.nodup_plug_iff.mp hn).2.1⟩

theorem patched (hd : s.Depicts P) (hv : P.Standing) (hp : P.outline = plug path x)
    (hpatch : Patches s.forest f' (parentOf none path) [x] [y]) (hs : f'.size = P.next + j) :
    State.Depicts ⟨f', index, entered.map (·.1), conflicts⟩
      ⟨plug path y, P.loose, index, entered, conflicts, P.next + j⟩ := by
  have hn := hv.nodup
  rw [Draft.handles, List.nodup_append'] at hn
  have hpatches := hpatch.plug (hp ▸ hd.outline) (hp ▸ hn.1)
  refine ⟨by simpa using hpatches.holds, ?_, hs, rfl, rfl, rfl⟩
  intro o ho
  refine hpatches.bystander (hd.loose o ho) ?_
  intro k hk hx
  rw [List.flatMap_singleton, ← hp] at hx
  exact hn.2.2 hx (List.mem_flatMap.mpr ⟨o, ho, hk⟩)

theorem loosened (hd : s.Depicts P) {c : Content} {n : Notes}
    (hl : f'.look = Function.update s.forest.look s.forest.size (some ⟨.plain c, n, none, []⟩))
    (hs : f'.size = s.forest.size + 1) :
    State.Depicts ⟨f', index, entered.map (·.1), conflicts⟩ ⟨P.outline,
      P.loose ++ [.node P.next c n []], index, entered, conflicts, P.next + 1⟩ := by
  have keep {o : Outline} {p : Option Handle} (ho : o.Holds s.forest.look p) : o.Holds f'.look p :=
    ho.congr fun k hk => Forest.look_old hl k (ho.lt_size hk)
  refine ⟨keep hd.outline, ?_, by rw [hs, hd.size], rfl, rfl, rfl⟩
  intro o ho
  rcases List.mem_append.mp ho with ho | ho
  · exact keep (hd.loose o ho)
  · cases List.mem_singleton.mp ho
    simp [hl, ← hd.size]

theorem current (hd : s.Depicts P) : s.current = P.current := by
  rw [State.current, Draft.current, hd.entered, List.head?_map]

theorem kind (hd : s.Depicts P) (path : List Frame) {h : Handle} {c : Content} {n : Notes} {cs : List Outline}
    (hp : P.outline = plug path (.node h c n cs)) : s.forest.kind h = .ok (.plain c) :=
  Forest.kind_of_holds (hp ▸ hd.outline)

theorem scopeName (hd : s.Depicts P) (hv : P.Standing) : s.scopeName = .ok P.name := by
  obtain ⟨path, c, m, cs, hp, -, hn, hc⟩ := hv.exists_current
  have hq := Forest.qualifiedName_of_holds (hp ▸ hd.outline) (hp ▸ hv.nodup_outline)
  simp only [State.scopeName, hd.current, hd.kind path hp, bind, Except.bind, hq, hn, Kind.isScope,
    Kind.scope?]
  rcases hc with ⟨t, rfl⟩ | ⟨rfl, -, hname⟩
  · rfl
  · rw [hname]; rfl

theorem find_kinds {f : Forest} {p : Handle → Bool} {hs : List Handle}
    (hk : ∀ h ∈ hs, ∃ k, f.kind h = .ok k ∧ k.isScope = p h) :
    ∃ ks, f.kinds hs = .ok ks ∧ (ks.find? (·.2.isScope)).map (·.1) = hs.find? p := by
  induction hs with
  | nil => exact ⟨[], rfl, rfl⟩
  | cons h hs ih =>
      obtain ⟨k, hk', hp⟩ := hk h (by simp)
      obtain ⟨ks, hks, he⟩ := ih fun x hx => hk x (by simp [hx])
      refine ⟨(h, k) :: ks, ?_, ?_⟩
      · rw [Forest.kinds] at hks ⊢
        rw [List.mapM_cons, hk', hks]
        rfl
      · rw [List.find?_cons, List.find?_cons, ← hp, ← he]
        cases k.isScope <;> rfl

theorem scopeUnder? (hd : s.Depicts P) (hv : P.Standing) (key : String) :
    s.scopeUnder? key = .ok (P.scopeUnder? key) := by
  obtain ⟨ks, hks, he⟩ := @find_kinds s.forest P.isScopeAt (P.index.recent key) (by
    intro h hh
    obtain ⟨e, hm, rfl⟩ := hv.indexed _ (Draft.mem_recent hh)
    obtain ⟨path, cs, hp, -, -⟩ := Outline.exists_path_of_mem_census hm
    refine ⟨_, hd.kind path hp, ?_⟩
    rw [Bool.eq_iff_iff, Draft.isScopeAt, List.any_eq_true]
    refine ⟨fun hs => ⟨e, hm, by simpa [Kind.isScope, Kind.scope?] using hs⟩, ?_⟩
    rintro ⟨e', hm', hs⟩
    rw [Bool.and_eq_true, decide_eq_true_eq] at hs
    cases Outline.census_unique hv.nodup_outline hm hm' hs.1.symm
    exact hs.2)
  simp only [State.scopeUnder?, hd.index, hks, bind, Except.bind, Draft.scopeUnder?, ← he]
  rfl

theorem previous? (hd : s.Depicts P) (keys : List String) : s.previous? keys = P.previous? keys := by
  rw [State.previous?, Draft.previous?, hd.index]

theorem place (hd : s.Depicts P) (hv : P.Standing) {c d : Content} {n m : Notes} {cs : List Outline}
    (hp : P.outline = plug path (.node P.current c n cs)) (hc : c.isContainer = true)
    (keys : List String) : ∃ f', s.place d m keys =
      .ok (⟨f', P.index.insertAll keys P.next, P.entered.map (·.1), P.conflicts⟩, P.next) ∧
      f'.size = P.next + 1 ∧ Patches s.forest f' (parentOf none path) [.node P.current c n cs]
        [.node P.current c n (cs ++ [.node P.next d m []])] := by
  obtain ⟨ho, hn⟩ := hd.part hv hp
  obtain ⟨f', he, hs, hpatch⟩ := Forest.append_patches (d := d) (m := m) ho hn hc
  rw [hd.size] at hs hpatch
  refine ⟨f', ?_, hs, hpatch⟩
  simp only [State.place, hd.current, he, bind, Except.bind, hd.index, hd.entered, hd.conflicts,
    hd.size]
  rfl

theorem owner (hd : s.Depicts P) (hp : P.outline = plug path x) (hside : Draft.onSide path = false)
    {k : Handle} (hk : parentOf none path = some k) : ∃ n, s.forest.look k = some n ∧
      ∀ labels left right, n.kind ≠ .conflict .declarations labels left right := by
  cases path with
  | nil => cases hk
  | cons fr rest =>
      cases hk
      obtain ⟨⟨hfr, -⟩, -⟩ := ((holds_plug (fr :: rest) x).mp (hp ▸ hd.outline)).1
      refine ⟨_, hfr, ?_⟩
      cases fr with
      | node => simp [Frame.nodeAround]
      | left _ form =>
          cases form with
          | declarations => cases hside
          | headers => simp [Frame.nodeAround]

theorem opposed (hd : s.Depicts P) (hv : P.Standing) (o : Options) (key : String) (l : Leaf) (n : Notes)
    {nq : Notes} {q previous : Handle} {d : Content} {before after : List Outline}
    (hp : P.outline = plug path (.node q d nq (before ++ x :: after)))
    (hx : ∀ f₁ k, s.forest.create (.plain (.leaf l)) n = (f₁, k) →
      f₁.enclosingConflict previous = .ok none ∧ f₁.anchor previous = .ok x.handle) :
    ∃ s', s.contestLeaf o key previous l n = .ok s' ∧ s'.Depicts
      { P with
        outline := plug path (.node q d nq (before ++
          .conflict (P.next + 3) .declarations o.labels {} (.node (P.next + 1) .tree {} [x])
            (.node (P.next + 2) .tree {} [.node P.next (.leaf l) n []]) :: after))
        conflicts := P.record o key previous P.next
        next := P.next + 4 } := by
  obtain ⟨ho, hn⟩ := hd.part hv hp
  obtain ⟨f₁, f₂, f₃, hcreate, hwrap, hright, hattach, hsize, hpatch⟩ := oppose_patches
    (l := l) (m := n) (hv.container hp) ho hn
  obtain ⟨hconflict, hanchor⟩ := hx f₁ _ hcreate
  rw [hd.size] at hcreate hwrap hright hattach hsize hpatch
  refine ⟨_, ?_, hd.patched hv hp hpatch hsize⟩
  simp only [State.contestLeaf, bind, Except.bind, hcreate, hconflict, hanchor, hwrap, hright, hattach,
    State.record, hd.index, hd.conflicts, hd.entered]
  rfl

end State.Depicts

open State

variable {o : Options} {s : State} {P Q : Draft}

theorem depicts_enter {scope : Scope} {n : Notes} (hd : s.Depicts P) (hv : P.Standing)
    (hs : Step o P (.enter scope n) Q) : ∃ s', s.step o (.enter scope n) = .ok s' ∧ s'.Depicts Q := by
  have hname := hd.scopeName hv
  have hunder := hd.scopeUnder? hv (scope.qualify P.name)
  cases hs with
  | newScope _ _ path c m cs hu hp hc hn =>
      obtain ⟨f', he, hsize, hpatch⟩ := hd.place (d := .scope scope) (m := n) hv hp hc
        [scope.qualify P.name]
      refine ⟨_, ?_, hd.patched hv hp hpatch hsize⟩
      simp only [State.step, State.placeScope, hname, hunder, hu, he, bind, Except.bind]
      rfl
  | knownScope _ _ path h m cs hu hp =>
      obtain ⟨ho, hn⟩ := hd.part hv hp
      obtain ⟨f', he, hsize, hpatch⟩ := Forest.update_patches
        (g := fun k => { k with notes := k.notes.addComments n.comments }) ho hn rfl
      refine ⟨_, ?_, hd.patched (j := 0) hv hp hpatch (hsize.trans hd.size)⟩
      simp only [State.step, State.placeScope, hname, hunder, hu, bind, Except.bind, hd.kind path hp,
        Kind.compatible, Content.compatible, decide_true, if_true, Forest.addComments, he]
      rw [hd.index, hd.entered, hd.conflicts]
      rfl
  | keptHeader _ _ path h t m cs hu hp hne hk =>
      refine ⟨{ s with entered := h :: s.entered }, ?_, { hd with entered := by simp [hd.entered] }⟩
      simp only [State.step, State.placeScope, hname, hunder, hu, bind, Except.bind, hd.kind path hp,
        Kind.compatible, Content.compatible, decide_eq_false hne, hk]
      rfl
  | contestedHeader _ _ path q c nq before after h t m cs hu hp hne hk =>
      obtain ⟨ho, hn⟩ := hd.part hv hp
      obtain ⟨f₁, f₂, hcreate, hanchor, hwrap, hsize, hpatch⟩ := contest_patches
        scope n (hv.container hp) ho hn
      rw [hd.size] at hcreate hwrap hsize hpatch
      refine ⟨_, ?_, hd.patched hv hp hpatch hsize⟩
      have hkind := hd.kind (.node q c nq before after :: path) hp
      simp only [State.step, State.placeScope, State.contestHeader, hname, hunder, hu, bind,
        Except.bind, hkind, Kind.compatible, Content.compatible, decide_eq_false hne, hk, hcreate,
        hanchor, hwrap, if_true, State.record, hd.index, hd.conflicts, hd.entered]
      rfl
  | repeatedHeader _ _ path q old nq r h t m cs hu hp hne hk =>
      obtain ⟨ho, hn⟩ := hd.part hv hp
      obtain ⟨hq, hleft, -⟩ := (Outline.holds_conflict ..).mp ho
      have hl := ((Outline.holds_node ..).mp hleft).1
      obtain ⟨f', hcreate, hsize, hlook⟩ := Forest.create_spec s.forest (.plain (.scope scope)) n
      have hanchor := anchor_of_look ((Forest.look_old hlook h (Forest.look_lt hl)).trans hl) rfl
        ((Forest.look_old hlook q (Forest.look_lt hq)).trans hq)
      have hqh : q ≠ h := by
        rintro rfl
        simp at hn
      refine ⟨_, ?_, hd.loosened hlook hsize⟩
      rw [hd.size] at hcreate
      have hkind := hd.kind (.left q .headers old nq r :: path) hp
      simp only [State.step, State.placeScope, State.contestHeader, hname, hunder, hu, bind,
        Except.bind, hkind, Kind.compatible, Content.compatible, decide_eq_false hne, hk, hcreate,
        hanchor, State.record, hd.index, hd.conflicts, hd.entered, Kind.isHeaderConflict, if_true, hqh, if_false]
      rfl

theorem depicts_declare {leaf : Leaf} {n : Notes} (hd : s.Depicts P) (hv : P.Standing)
    (hs : Step o P (.declare leaf n) Q) :
    ∃ s', s.step o (.declare leaf n) = .ok s' ∧ s'.Depicts Q := by
  have hname := hd.scopeName hv
  have hprev := hd.previous? (leaf.keys P.name)
  cases hs with
  | newLeaf _ _ path c m cs hu hp hc hn =>
      obtain ⟨f', he, hsize, hpatch⟩ := hd.place (d := .leaf leaf) (m := n) hv hp hc (leaf.keys P.name)
      refine ⟨_, ?_, hd.patched hv hp hpatch hsize⟩
      simp only [State.step, State.placeLeaf, hname, hprev, hu, he, bind, Except.bind]
      rfl
  | unitedLeaf _ _ path key h l' m cs hu hp hl =>
      obtain ⟨ho, hn⟩ := hd.part hv hp
      obtain ⟨f', he, hsize, hpatch⟩ := Forest.update_patches (g := fun k =>
        { k with
          kind := k.kind.absorb (.plain (.leaf leaf))
          notes := k.notes.addComments n.comments }) (d := .leaf (l'.absorb leaf)) ho hn rfl
      refine ⟨_, ?_, hd.patched (j := 0) hv hp hpatch (hsize.trans hd.size)⟩
      simp only [State.step, State.placeLeaf, hname, hprev, hu, bind, Except.bind, hd.kind path hp,
        Kind.compatible, Content.compatible, hl, if_true, Forest.absorb, he]
      rw [hd.index, hd.entered, hd.conflicts]
      rfl
  | keptLeaf _ _ path key h c m cs hu hp hl hk =>
      refine ⟨s, ?_, hd⟩
      simp only [State.step, State.placeLeaf, hname, hprev, hu, bind, Except.bind, hd.kind path hp,
        Kind.compatible, hl, hk]
      rfl
  | joinedLeaf _ _ path key q old nq b nb before after h c m cs r nr rs hu hp hl hk =>
      obtain ⟨ho, hn⟩ := hd.part hv hp
      obtain ⟨hq, hleft, -⟩ := (Outline.holds_conflict ..).mp ho
      obtain ⟨hb, hbs⟩ := (Outline.holds_node ..).mp hleft
      have hh := ((Outline.holds_node ..).mp (hbs (.node h c m cs) (by simp))).1
      obtain ⟨f₁, f₂, hcreate, hside, hattach, hsize, hpatch⟩ := join_patches leaf n ho hn
      have hconflict : f₁.enclosingConflict h = .ok (some q) := by
        simp only [Forest.enclosingConflict, Forest.parent_of_look (Forest.look_created hcreate hh),
          Forest.parent_of_look (Forest.look_created hcreate hb),
          Forest.kind_of_look (Forest.look_created hcreate hq), bind, Except.bind,
          Outline.handle_node, true_or, if_true]
        rfl
      rw [hd.size] at hcreate hattach hsize hpatch
      refine ⟨_, ?_, hd.patched hv hp hpatch hsize⟩
      have hkind := hd.kind (.node b .tree nb before after ::
        .left q .declarations old nq (.node r .tree nr rs) :: path) hp
      simp only [State.step, State.placeLeaf, State.contestLeaf, hname, hprev, hu, bind, Except.bind,
        hkind, Kind.compatible, hl, hk, hcreate, hconflict, pure, Except.pure, hside, hattach,
        State.record, hd.index, hd.conflicts, hd.entered]
      rfl
  | opposedLeaf _ _ path key q d nq before after h c m cs hu hp hside hl hk =>
      obtain ⟨hq, hcs⟩ := (Outline.holds_node ..).mp (hd.part hv hp).1
      have hh := ((Outline.holds_node ..).mp (hcs (.node h c m cs) (by simp))).1
      obtain ⟨s', he, hd'⟩ := hd.opposed hv o key leaf n hp (by
        intro f₁ k hcreate
        have hh₁ := Forest.look_created hcreate hh
        have hq₁ := Forest.look_created hcreate hq
        refine ⟨enclosingConflict_of_look hh₁ rfl hq₁ ?_, anchor_of_look hh₁ rfl hq₁⟩
        intro k hk
        obtain ⟨a, ha, hne⟩ := hd.owner hp hside hk
        exact ⟨a, Forest.look_created hcreate ha, hne⟩)
      refine ⟨s', ?_, hd'⟩
      have hkind := hd.kind (.node q d nq before after :: path) hp
      simp only [State.step, State.placeLeaf, hname, hprev, hu, bind, Except.bind, hkind,
        Kind.compatible, hl, hk]
      exact he
  | opposedHeaders _ _ path key q d nq before after k old nk h c m cs r hu hp hl hk =>
      obtain ⟨hq, hcs⟩ := (Outline.holds_node ..).mp (hd.part hv hp).1
      have hk' := hcs (.conflict k .headers old nk (.node h c m cs) r) (by simp)
      obtain ⟨hk', hleft, -⟩ := (Outline.holds_conflict ..).mp hk'
      have hh := ((Outline.holds_node ..).mp hleft).1
      obtain ⟨s', he, hd'⟩ := hd.opposed hv o key leaf n hp (by
        intro f₁ _ hcreate
        have hh₁ := Forest.look_created hcreate hh
        have hk₁ := Forest.look_created hcreate hk'
        refine ⟨enclosingConflict_of_look hh₁ rfl hk₁ ?_, anchor_of_look hh₁ rfl hk₁⟩
        intro p hp'
        cases hp'
        exact ⟨_, Forest.look_created hcreate hq, by simp⟩)
      refine ⟨s', ?_, hd'⟩
      have hkind := hd.kind (.left k .headers old nk r :: .node q d nq before after :: path) hp
      simp only [State.step, State.placeLeaf, hname, hprev, hu, bind, Except.bind, hkind,
        Kind.compatible, hl, hk]
      exact he

/-- The merge does to a state what a step does to a draft. -/
theorem Step.depicts {e : Event} (hd : s.Depicts P) (hv : P.Standing) (hs : Step o P e Q) :
    ∃ s', s.step o e = .ok s' ∧ s'.Depicts Q := by
  cases e with
  | enter => exact depicts_enter hd hv hs
  | leave =>
      cases hs
      exact ⟨_, rfl, { hd with entered := by simp [hd.entered] }⟩
  | declare => exact depicts_declare hd hv hs
  | remark comments =>
      cases hs with
      | remarked _ path c m cs hp hn =>
          obtain ⟨ho, hn⟩ := hd.part hv hp
          obtain ⟨f', he, hsize, hpatch⟩ := Forest.update_patches
            (g := fun k => { k with notes := k.notes.addComments comments }) ho hn rfl
          refine ⟨_, ?_, hd.patched (j := 0) hv hp hpatch (hsize.trans hd.size)⟩
          simp only [State.step, hd.current, Forest.addComments, he, bind, Except.bind]
          rw [hd.index, hd.entered, hd.conflicts]
          rfl
  | carry => cases hs

end Reconcile.Merge
