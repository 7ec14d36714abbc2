import Reconcile.Proofs.Forest.Move

namespace Reconcile

theorem Outline.filter_handles {cs : List Outline} (hd : (cs.flatMap handles).Nodup)
    (pick : Outline → Bool) : (cs.map handle).filter (· ∉ (cs.filter pick).map handle) =
      (cs.filter (!pick ·)).map handle := by
  have hinj := List.inj_on_of_nodup_map ((map_handle_sublist cs).nodup hd)
  rw [List.filter_map]
  congr 1
  refine List.filter_congr fun x hx => ?_
  have hmem : x.handle ∈ (cs.filter pick).map handle ↔ pick x = true := by
    constructor
    · intro hm
      obtain ⟨y, hy, he⟩ := List.mem_map.mp hm
      obtain ⟨hy, hp⟩ := List.mem_filter.mp hy
      rwa [← hinj hy hx he]
    · intro hp
      exact List.mem_map_of_mem (List.mem_filter.mpr ⟨hx, hp⟩)
  simp only [Function.comp_apply, decide_not, hmem, Bool.decide_eq_true]

namespace Forest

variable {f : Forest} {parent source : Option Handle} {h k : Handle} {c d : Content} {n m : Notes}
  {cs xs : List Outline} {step : Handle → Forest → Handle → Except Fault Forest}
  {τ : Outline → Outline}

/-- A step that moves one of the nodes `xs` into a container and changes it by `τ`. -/
def TakesIn (step : Handle → Forest → Handle → Except Fault Forest) (τ : Outline → Outline)
    (source : Option Handle) (xs : List Outline) : Prop :=
  ∀ ⦃f : Forest⦄ ⦃k : Handle⦄ ⦃x : Outline⦄, x ∈ xs → Moves.Ready f source (some k) [x] →
    x.Holds f.look source → source ≠ some k →
    ∃ f', step k f x.handle = .ok f' ∧ Moves f f' source (some k) [x] [τ x]

theorem takesIn_attach : TakesIn (fun k f x => f.attach k x) id source xs := by
  intro f k x _ hr hx hne
  exact attach_moves hr hx hne

theorem flatMap_handles_map (hτ : ∀ x ∈ xs, (τ x).handles = x.handles) :
    (xs.map τ).flatMap Outline.handles = xs.flatMap Outline.handles := by
  rw [List.flatMap_map]
  exact List.flatMap_congr hτ

theorem map_handle_map (hτ : ∀ x ∈ xs, (τ x).handles = x.handles) :
    (xs.map τ).map Outline.handle = xs.map Outline.handle := by
  rw [List.map_map]
  exact List.map_congr_left fun x hx => (List.cons.inj (hτ x hx)).1

theorem takeIn_patches (pick : Outline → Bool) (τ : Outline → Outline)
    (ho : (Outline.node h c n (cs ++ [.node k d m []])).Holds f.look parent)
    (hd : (Outline.node h c n (cs ++ [.node k d m []])).handles.Nodup) (hcd : d.isContainer = true)
    (hτ : ∀ x, pick x = true → (τ x).handles = x.handles)
    (hstep : TakesIn step τ (some h) (cs.filter pick)) :
    ∃ f', ((cs.filter pick).map Outline.handle).foldlM (step k) f = .ok f' ∧
      Patches f f' parent [.node h c n (cs ++ [.node k d m []])]
        [.node h c n (cs.filter (!pick ·) ++ [.node k d m ((cs.filter pick).map τ)])] := by
  have hτ' : ∀ x ∈ cs.filter pick, (τ x).handles = x.handles :=
    fun x hx => hτ x (List.mem_filter.mp hx).2
  have hparts : ((cs.filter (!pick ·)).flatMap Outline.handles ++
      (cs.filter pick).flatMap Outline.handles).Perm (cs.flatMap Outline.handles) := by
    rw [← List.flatMap_append]
    exact (List.perm_append_comm.trans (List.filter_append_perm pick cs)).flatMap_right _
  have hperm : ([Outline.node h c n (cs ++ [.node k d m []])].flatMap Outline.handles).Perm
      (h :: k :: ((cs.filter (!pick ·)).flatMap Outline.handles ++
        (cs.filter pick).flatMap Outline.handles)) := by
    simp only [List.flatMap_singleton, Outline.handles_node, List.flatMap_append, List.flatMap_nil]
    exact .cons h (List.perm_append_comm.trans (.cons k hparts.symm))
  have hd' := hperm.nodup (by simpa using hd)
  rw [List.nodup_cons, List.nodup_cons, List.mem_cons, List.mem_append, List.mem_append, not_or, not_or,
    not_or, List.nodup_append'] at hd'
  obtain ⟨⟨hhk, hhl, hhm⟩, ⟨hkl, hkm⟩, hleft, hmoved, hdis⟩ := hd'
  obtain ⟨hh, hcs⟩ := (Outline.holds_node ..).mp ho
  have hk := ((Outline.holds_node ..).mp (hcs (.node k d m []) (by simp))).1
  have hready : Moves.Ready f (some h) (some k) (cs.filter pick) := by
    refine ⟨?_, ?_, hmoved⟩
    · rintro _ ⟨⟩
      exact ⟨hkm, _, hk, hcd⟩
    · rintro _ ⟨⟩
      exact ⟨hhm, _, hh⟩
  have hsource : some h ≠ some k := by simpa using hhk
  obtain ⟨f', he, hmv⟩ := Moves.foldlM τ hτ' hready
    (fun x hx => hcs x (List.mem_append_left _ (List.mem_of_mem_filter hx)))
    fun hm hr hx => hstep hm hr hx hsource
  refine ⟨f', he, .of_subperm ?_ rfl hmv.size ?_ (by simpa using hd) ?_⟩
  · intro y hy
    cases List.mem_singleton.mp hy
    refine (Outline.holds_node ..).mpr ⟨?_, ?_⟩
    · have hcsd := hparts.nodup (List.nodup_append'.mpr ⟨hleft, hmoved, hdis⟩)
      have hlast : [k].filter (· ∉ (cs.filter pick).map Outline.handle) = [k] :=
        List.filter_cons_of_pos (decide_eq_true fun hm => hkm (Outline.map_handle_subset _ hm))
      rw [hmv.look_source hhm (by simpa using Ne.symm hhk) hh]
      simp only [List.map_append, List.filter_append, Outline.filter_handles hcsd, List.map_cons,
        List.map_nil, Outline.handle_node, hlast]
    · intro o ho
      rcases List.mem_append.mp ho with ho | ho
      · refine hmv.bystander (hcs o (List.mem_append_left _ (List.mem_of_mem_filter ho))) ?_ ?_ ?_
        · exact fun y hy => hdis (Outline.handles_subset ho hy)
        · rintro _ ⟨⟩ hy
          exact hkl (Outline.handles_subset ho hy)
        · rintro _ ⟨⟩ hy
          exact hhl (Outline.handles_subset ho hy)
      · cases List.mem_singleton.mp ho
        refine (Outline.holds_node ..).mpr ⟨?_, hmv.holds⟩
        rw [hmv.look_target hkm hk, map_handle_map hτ']
        rfl
  · intro y hy
    rw [hperm.mem_iff, List.mem_cons, List.mem_cons, List.mem_append, not_or, not_or, not_or] at hy
    exact hmv.look_eq hy.2.2.2 (by simpa using Ne.symm hy.2.1) (by simpa using Ne.symm hy.1)
  · refine List.Perm.subperm (List.Perm.trans ?_ hperm.symm)
    simp only [List.flatMap_singleton, Outline.handles_node, List.flatMap_append, flatMap_handles_map hτ']
    exact .cons h List.perm_middle

theorem nest_patches (pick : Outline → Bool) (τ : Outline → Outline)
    (ho : (Outline.node h c n cs).Holds f.look parent)
    (hd : (Outline.node h c n cs).handles.Nodup) (hc : c.isContainer = true)
    (hcd : d.isContainer = true) (hτ : ∀ x, pick x = true → (τ x).handles = x.handles)
    (hstep : TakesIn step τ (some h) (cs.filter pick)) :
    ∃ f₁ f', f.append h d {} = .ok (f₁, f.size) ∧
      ((cs.filter pick).map Outline.handle).foldlM (step f.size) f₁ = .ok f' ∧
      Patches f f' parent [.node h c n cs]
        [.node h c n (cs.filter (!pick ·) ++ [.node f.size d {} ((cs.filter pick).map τ)])] := by
  obtain ⟨f₁, he₁, -, hp₁⟩ := append_patches ho hd hc
  obtain ⟨hholds, hnodup, -⟩ := hp₁.single
  obtain ⟨f', he, hp⟩ := takeIn_patches pick τ hholds hnodup hcd hτ hstep
  exact ⟨f₁, f', he₁, he, hp₁.trans hp⟩

end Forest

end Reconcile
