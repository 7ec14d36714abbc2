import Reconcile.Proofs.Merge.Carrying
import Reconcile.Proofs.Merge.Leading
import Reconcile.Proofs.Merge.Sides

namespace Reconcile

namespace Outline

mutual

/-- The conflicts that can be reached through containers only. -/
def outermost : Outline → List Outline
  | node _ _ _ cs => outermostOfAll cs
  | conflict h form labels n l r => [conflict h form labels n l r]

def outermostOfAll : List Outline → List Outline
  | [] => []
  | o :: os => o.outermost ++ outermostOfAll os

end

/-- An outline is directly on one side of a conflict of declarations, under a label. -/
def Files (o : Outline) (s : Side) (label : String) (x : Outline) : Prop :=
  ∃ d ∈ o.subtrees, d.isDispute = true ∧ d.label s = label ∧ x ∈ (d.side s).children

variable {o x y z : Outline} {s : Side} {parent : Option Handle}

@[simp] theorem outermostOfAll_eq (os : List Outline) : outermostOfAll os = os.flatMap outermost := by
  induction os with
  | nil => rfl
  | cons o os ih => simp [outermostOfAll, ih]

theorem carry_mem_events (hs : o.sound = true) (hx : x ∈ o.outermost) : .carry x ∈ o.events := by
  induction o with
  | node h c n cs ih =>
      rw [sound_node] at hs
      rw [outermost, outermostOfAll_eq, List.mem_flatMap] at hx
      obtain ⟨y, hy, hx⟩ := hx
      have hm : .carry x ∈ eventsOfAll cs := by
        rw [eventsOfAll_eq, List.mem_flatMap]
        exact ⟨y, hy, ih y hy (hs.2 y hy) hx⟩
      cases c with
      | scope => simp [events, hm]
      | leaf =>
          rcases hs.1 with hc | rfl
          · cases hc
          · cases hy
      | tree | visibilityGroup | group => exact List.mem_cons_of_mem _ hm
  | conflict =>
      cases List.mem_singleton.mp hx
      exact List.mem_singleton_self _

theorem isDispute_rename (φ : Handle → Handle) (x : Outline) : (x.rename φ).isDispute = x.isDispute := by
  cases x with
  | node =>
      rw [rename_node]
      rfl
  | conflict _ form => cases form <;> rfl

theorem isDeclaration_rename (φ : Handle → Handle) (x : Outline) :
    (x.rename φ).isDeclaration = x.isDeclaration := by
  cases x with
  | node =>
      rw [rename_node]
      rfl
  | conflict => rfl

theorem side_rename (φ : Handle → Handle) (x : Outline) :
    (x.rename φ).side s = (x.side s).rename φ := by
  cases x with
  | node => simp [side]
  | conflict => cases s <;> rfl

theorem rename_coalesced (φ : Handle → Handle) (x : Outline) :
    x.coalesced.rename φ = (x.rename φ).coalesced := by
  rw [coalesced, coalesced, rename_coalescedWithin, handles_rename, List.length_map]

theorem exists_member (h : x.forget = y.forget) {m : Outline} (hm : m ∈ (y.side s).children) :
    ∃ m' ∈ (x.side s).children, m'.forget = m.forget := by
  have hsides : (x.side s).children.map forget = (y.side s).children.map forget := by
    have hside : (x.side s).forget = (y.side s).forget := by
      rw [forget, forget, ← side_rename, ← side_rename]
      exact congrArg (side s) h
    have hchildren := congrArg children hside
    rwa [forget, forget, children_rename, children_rename] at hchildren
  obtain ⟨m', hm', heq⟩ := List.mem_map.mp (hsides ▸ List.mem_map_of_mem hm)
  exact ⟨m', hm', heq⟩

/-- Wherever a conflict of declarations has been put, the head of its run has its members at last. -/
theorem Hosts.exists_filed {q : Handle} {d : Nat} (hs : o.sound = true) (hn : o.handles.Nodup)
    (hroot : o.handle = Forest.root ∧ o.content? = some .tree) (hd : o.handles.length ≤ d)
    (hh : o.Hosts q x) (hx : x.isDispute = true) :
    ∃ p ∈ o.subtrees, ∃ head, p.Leads head x ∧ ∃ z ∈ (o.coalescedWithin d).subtrees,
      z.isDispute = true ∧ (∀ s, z.label s = head.label s) ∧
      ∀ s, ∀ m ∈ (x.side s).children, m.isDeclaration = true → m.coalesced ∈ (z.side s).children := by
  obtain ⟨c, n, cs, hp, hxcs, hq⟩ := hh
  have hsp := sound_of_mem_subtrees hs hp
  have hcs := ((sound_node ..).mp hsp).2
  obtain ⟨before, head, rest, hleads⟩ := exists_leads hxcs hx
  have hlead : (node q c n cs).Leads head x := ⟨before, rest, hleads⟩
  obtain ⟨z, hz, hdz, hlabel, hsides⟩ := exists_runs_of_leads (o := node q c n cs) hcs hlead
  have hsz := sound_runs hcs z hz
  have hle := length_of_mem_runs hcs hz
  -- The scope is folded as a whole.
  have hfolded : (node q c n cs).coalesced ∈ (o.coalescedWithin d).subtrees := by
    rcases hq with ⟨sc, rfl⟩ | ⟨rfl, rfl⟩
    · exact coalescedWithin_scope hs (by rw [hroot.2]; rfl) hd hp
    · cases eq_of_handle hn hp (mem_subtrees_self o) hroot.1.symm
      rw [coalesced, coalescedWithin_eq hs (Nat.le_refl _) hd]
      exact mem_subtrees_self _
  refine ⟨_, hp, head, hlead, z.descend (coalescedWithin (cs.flatMap Outline.handles).length), ?_, ?_⟩
  · refine subtrees_subset hfolded ?_
    rw [coalesced, handles_node, List.length_cons, coalescedWithin, subtrees_node]
    exact List.mem_cons_of_mem _ (List.mem_flatMap.mpr
      ⟨_, List.mem_map_of_mem hz, mem_subtrees_self _⟩)
  · cases z with
    | node => cases hdz
    | conflict k form labels nk l r =>
        cases form with
        | headers => cases hdz
        | declarations =>
            refine ⟨rfl, hlabel, fun s m hm hdecl => ?_⟩
            obtain ⟨⟨hl, hr⟩, hsl, hsr⟩ := (sound_conflict ..).mp hsz
            rw [handles_conflict, List.length_cons, List.length_append] at hle
            obtain ⟨a, na, ls, rfl⟩ := ConflictForm.exists_tree hl
            obtain ⟨b, nb, rs, rfl⟩ := ConflictForm.exists_tree hr
            have hm' := hsides s hm
            cases s with
            | left => exact mem_coalescedWithin hsl (by omega) hm' hdecl
            | right => exact mem_coalescedWithin hsr (by omega) hm' hdecl

theorem Holds.dispute_unique {look : Handle → Option Node} (ho : o.Holds look parent)
    (hn : o.handles.Nodup) (hx : x ∈ o.subtrees) (hy : y ∈ o.subtrees) (hdx : x.isDispute = true)
    (hdy : y.isDispute = true) (hzx : z ∈ (x.side s).children) (hzy : z ∈ (y.side s).children) : x = y := by
  have side_holds {x : Outline} (hx : x ∈ o.subtrees) (hdx : x.isDispute = true) :
      (x.side s).Holds look (some x.handle) := by
    obtain ⟨p, hp⟩ := ho.of_mem_subtrees hx
    cases x with
    | node => cases hdx
    | conflict =>
        obtain ⟨-, hl, hr⟩ := (holds_conflict ..).mp hp
        cases s with
        | left => exact hl
        | right => exact hr
  have hside := (side_holds hx hdx).handle_eq_of_child (side_holds hy hdy)
    (List.mem_map_of_mem hzx) (List.mem_map_of_mem hzy)
  obtain ⟨m, hm, hp⟩ := (side_holds hx hdx).look_handle
  obtain ⟨m', hm', hp'⟩ := (side_holds hy hdy).look_handle
  rw [hside, hm'] at hm
  cases hm
  exact eq_of_handle hn hx hy (Option.some.inj (hp.symm.trans hp'))

end Outline

namespace Merge

open Outline (Files)

variable {trees : List Forest}

/-- Well-formed trees are read to the end, and every conflict behind containers has a copy that is a
child of a scope or of the root. -/
theorem exists_carried (o : Options) (hk : o.keep ≠ .right) (hw : ∀ t ∈ trees, t.WellFormed) :
    ∃ s Q, trees.foldlM (State.merge o) {} = .ok s ∧ s.Depicts Q ∧ Q.Laden ∧
      ∀ t ∈ trees, ∀ T, t.outline Forest.root = .ok T → ∀ C ∈ T.outermost,
        ∃ q K, K.forget = C.forget ∧ Q.outline.Hosts q K := by
  obtain ⟨os, hos, hsound⟩ : ∃ os, readings trees = .ok os ∧ ∀ x ∈ os, x.sound = true := by
    refine exists_readings_of fun t ht => ?_
    obtain ⟨x, hx⟩ := (hw t ht).exists_shows
    exact ⟨x, hx.outline, hx.sound⟩
  have hevents : ∀ e ∈ os.flatMap Outline.events, e.Sound := by
    intro e he
    obtain ⟨x, hx, he⟩ := List.mem_flatMap.mp he
    exact Outline.sound_events (hsound x hx) e he
  obtain ⟨s, Q, hrun, hd, h⟩ :=
    Draft.valid_empty.laden.exists_continues_all State.Depicts.empty hk hevents
  refine ⟨s, Q, (foldlM_merge hos).trans hrun, hd, h.laden, fun t ht T hT C hC => ?_⟩
  have hTos : T ∈ os := (mem_readings hos).mpr ⟨t, ht, hT⟩
  obtain ⟨q, K, hforget, hK⟩ := h.copies C
    (List.mem_flatMap.mpr ⟨T, hTos, Outline.carry_mem_events (hsound T hTos) hC⟩)
  exact ⟨q, K, hforget, hK.hosts⟩

/-- A conflict of declarations that is left by an earlier merge is copied, and then folded into the
first conflict of the run that its copy is in. So a declaration on one side of it ends up on the same
side, under the label of that first conflict and under no other one. -/
theorem carried_members_filed (labels : Labels) {trees : List Forest}
    (hw : ∀ t ∈ trees, t.WellFormed) :
    ∃ s S out O, trees.foldlM (State.merge ⟨labels, .both⟩) {} = .ok s ∧
      s.forest.outline Forest.root = .ok S ∧ mergeAll ⟨labels, .both⟩ trees = .ok out ∧
      out.forest.outline Forest.root = .ok O ∧
      ∀ t ∈ trees, ∀ T, t.outline Forest.root = .ok T → ∀ C ∈ T.outermost, C.isDispute = true →
        ∃ p ∈ S.subtrees, ∃ head K, p.Leads head K ∧ K.forget = C.forget ∧
          ∀ side, ∀ m ∈ (C.side side).children, m.isDeclaration = true →
            ∃ y, y.forget = m.coalesced.forget ∧
              ∀ label, O.Files side label y ↔ label = head.label side := by
  obtain ⟨s, Q, hfold, hd, hv, hcopies⟩ := exists_carried ⟨labels, .both⟩ nofun hw
  have hn := hv.standing.nodup_outline
  have hdepth := hd.outline.length_le_visitDepth hn
  obtain ⟨f, hf, hpatch⟩ := Forest.coalesce_patches hd.outline hn hv.sound hv.root.1 hv.root.2
  obtain ⟨ho, hno, hh⟩ := hpatch.single
  refine ⟨s, Q.outline, ⟨f, s.conflicts⟩, Q.outline.coalescedWithin s.forest.visitDepth, hfold,
    ?_, ?_, ?_, fun t ht T hT C hC hdC => ?_⟩
  · rw [← hv.root.1]
    exact Forest.outline_of_holds hd.outline hn
  · simp only [mergeAll, hfold, hf, bind, Except.bind]
    rfl
  · rw [← hv.root.1, ← hh]
    exact Forest.outline_of_holds ho hno
  · obtain ⟨q, K, hforget, hK⟩ := hcopies t ht T hT C hC
    have hdK : K.isDispute = true := by
      rw [← Outline.isDispute_rename (fun _ => 0), ← Outline.forget, hforget, Outline.forget,
        Outline.isDispute_rename, hdC]
    obtain ⟨p, hp, head, hlead, z, hz, hdz, hlabel, hfiled⟩ :=
      hK.exists_filed hv.sound hn hv.root hdepth hdK
    refine ⟨p, hp, head, K, hlead, hforget, fun side m hm hdecl => ?_⟩
    obtain ⟨m', hm', hforget'⟩ := Outline.exists_member hforget hm
    have hdecl' : m'.isDeclaration = true := by
      rw [← Outline.isDeclaration_rename (fun _ => 0), ← Outline.forget, hforget', Outline.forget,
        Outline.isDeclaration_rename, hdecl]
    have hy := hfiled side m' hm' hdecl'
    refine ⟨m'.coalesced, ?_, fun label => ⟨?_, ?_⟩⟩
    · rw [Outline.forget, Outline.rename_coalesced, ← Outline.forget, hforget', Outline.forget,
        ← Outline.rename_coalesced, ← Outline.forget]
    · rintro ⟨w, hw, hdw, rfl, hyw⟩
      rw [ho.dispute_unique hno hw hz hdw hdz hyw hy, hlabel]
    · rintro rfl
      exact ⟨z, hz, hdz, hlabel side, hy⟩

def disputed (name : String) (labels : Labels) : Forest :=
  ⟨#[{ kind := .plain .tree, children := [5] },
    { kind := .plain (.leaf (.constant name "1")), parent := some 3 },
    { kind := .plain (.leaf (.constant name "2")), parent := some 4 },
    { kind := .plain .tree, parent := some 5, children := [1] },
    { kind := .plain .tree, parent := some 5, children := [2] },
    { kind := .conflict .declarations labels 3 4, parent := some 0 }]⟩

example : (mergeAll ⟨⟨"a", "b"⟩, .both⟩ [.ofConstant "X" "1", .ofConstant "X" "2"]).map (·.forest) =
    .ok (disputed "X" ⟨"a", "b"⟩) := rfl

def disputes : List Forest := [disputed "X" ⟨"a", "b"⟩, disputed "Y" ⟨"c", "d"⟩]

theorem carried_members_filed_disputes : (∀ t ∈ disputes, t.WellFormed) ∧
    ∃ s S out O, disputes.foldlM (State.merge {}) {} = .ok s ∧
      s.forest.outline Forest.root = .ok S ∧ mergeAll {} disputes = .ok out ∧
      out.forest.outline Forest.root = .ok O ∧
      ∀ t ∈ disputes, ∀ T, t.outline Forest.root = .ok T → ∀ C ∈ T.outermost, C.isDispute = true →
        ∃ p ∈ S.subtrees, ∃ head K, p.Leads head K ∧ K.forget = C.forget ∧
          ∀ side, ∀ m ∈ (C.side side).children, m.isDeclaration = true →
            ∃ y, y.forget = m.coalesced.forget ∧
              ∀ label, O.Files side label y ↔ label = head.label side := by
  have hw : ∀ t ∈ disputes, t.WellFormed := by decide
  exact ⟨hw, carried_members_filed ⟨"left", "right"⟩ hw⟩

/-- The conflict about `Y` is folded into the one about `X`, so nothing is left under the labels that
it had. -/
theorem carried_members_relabelled : (∀ t ∈ disputes, t.WellFormed) ∧
    ∃ out O T C m, mergeAll {} disputes = .ok out ∧ out.forest.outline Forest.root = .ok O ∧
      disputed "Y" ⟨"c", "d"⟩ ∈ disputes ∧
      (disputed "Y" ⟨"c", "d"⟩).outline Forest.root = .ok T ∧ C ∈ T.outermost ∧ C.isDispute = true ∧
      m ∈ (C.side .left).children ∧ m.isDeclaration = true ∧ C.label .left = "c" ∧
      ∀ y, ¬ O.Files .left "c" y := by
  refine ⟨by decide, _, _, _, _, _, rfl, rfl, List.mem_cons_of_mem _ (List.mem_singleton_self _), rfl,
    List.mem_singleton_self _, rfl, List.mem_singleton_self _, rfl, rfl, ?_⟩
  rintro y ⟨d, hd, hdispute, hlabel, -⟩
  revert d
  decide

end Merge

end Reconcile
