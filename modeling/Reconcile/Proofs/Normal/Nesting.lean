import Reconcile.Proofs.Forest.Gather
import Reconcile.Proofs.Normal.Rules
import Reconcile.Proofs.Normal.Upward

namespace Reconcile

open Forest Outline

namespace Outline

variable {f : Forest} {parent : Option Handle} {o : Outline} {os cs : List Outline} {pick : Outline → Bool}
  {c : Content} {φ : Handle → Handle}

theorem Holds.kind (ho : o.Holds f.look parent) : f.kind o.handle = .ok o.kind := by
  cases o with
  | node h c n cs => rw [handle_node, kind_of_look ((holds_node ..).mp ho).1]; rfl
  | conflict h form labels n l r => rw [handle_conflict, kind_of_look ((holds_conflict ..).mp ho).1]; rfl

theorem kinds_of_holds (ho : ∀ o ∈ os, o.Holds f.look parent) :
    f.kinds (os.map handle) = .ok (os.map fun o => (o.handle, o.kind)) := by
  apply mapM_handles
  intro o hm
  rw [(ho o hm).kind]
  rfl

theorem picked_handles (p : Kind → Bool) (os : List Outline) :
    ((os.map fun o => (o.handle, o.kind)).filter (p ·.2)).map (·.1) =
      (os.filter fun o => p o.kind).map handle := by
  rw [List.filter_map, List.map_map]
  rfl

@[simp] theorem isSingletonMethod_rename (φ : Handle → Handle) (o : Outline) :
    (o.rename φ).isSingletonMethod = o.isSingletonMethod := by
  cases o with
  | node => rfl
  | conflict => rfl

@[simp] theorem hasVisibility_rename (φ : Handle → Handle) (v : Visibility) (o : Outline) :
    (o.rename φ).hasVisibility v = o.hasVisibility v := by
  cases o with
  | node => rfl
  | conflict => rfl

theorem map_rename_gathered (τ : Outline → Outline) (hpick : ∀ o, pick (o.rename φ) = pick o)
    (hτ : ∀ o, pick o = true → (τ o).rename φ = τ (o.rename φ)) (hany : cs.any pick = true)
    {k : Handle} (hk : φ k = 0) :
    (cs.filter (!pick ·) ++ [node k c {} ((cs.filter pick).map τ)]).map (rename φ) =
      gathered c pick τ (cs.map (rename φ)) := by
  have hkeep (p : Outline → Bool) (hp : ∀ o, p (o.rename φ) = p o) :
      (cs.map (rename φ)).filter p = (cs.filter p).map (rename φ) := by
    rw [List.filter_map]
    congr 2
    funext o
    exact hp o
  have hany' : (cs.map (rename φ)).any pick = true := by
    rw [List.any_map]
    simpa only [Function.comp_def, hpick] using hany
  rw [gathered, if_pos hany', hkeep pick hpick, hkeep (!pick ·) fun o => by rw [hpick], List.map_append,
    List.map_singleton, rename_node, hk, List.map_map, List.map_map]
  congr 3
  refine List.map_congr_left fun o ho => ?_
  exact hτ o (List.mem_filter.mp ho).2

end Outline

variable {f : Forest} {parent : Option Handle} {h : Handle} {c : Content} {n : Notes}
  {cs xs : List Outline} {N : Nat} {φ : Handle → Handle}

theorem takesIn_moveSingleton {source : Option Handle} (hx : ∀ x ∈ xs, x.isSingletonMethod = true) :
    TakesIn moveSingleton clearSingleton source xs := by
  intro f k x hm hr hholds hne
  obtain ⟨h, m, n, cs, rfl⟩ := leaf_of_isSingletonMethod (hx x hm)
  let y := Outline.node h (.leaf (.method { m with isSingleton := false })) n cs
  have hy : [y].flatMap handles = [node h (.leaf (.method m)) n cs].flatMap handles := by simp [y]
  obtain ⟨f₁, he₁, hs₁, hp₁⟩ := update_patches hholds (by simpa using hr.nodup)
    (d := .leaf (.method { m with isSingleton := false })) (m := n)
    (g := fun n => { n with kind := n.kind.clearSingleton }) rfl
  have hr₁ : Moves.Ready f₁ source (some k) [y] := by
    refine ⟨?_, ?_, hy ▸ hr.nodup⟩
    · intro p hp
      obtain ⟨hpx, a, ha, hk⟩ := hr.target p hp
      exact ⟨hy ▸ hpx, a, by rw [hp₁.look_eq hs₁ hpx, ha], hk⟩
    · intro q hq
      obtain ⟨hqx, a, ha⟩ := hr.source q hq
      exact ⟨hy ▸ hqx, a, by rw [hp₁.look_eq hs₁ hqx, ha]⟩
  obtain ⟨f₂, he₂, hm₂⟩ := attach_moves hr₁ (hp₁.holds y (List.mem_singleton_self _)) hne
  refine ⟨f₂, ?_, hm₂.size.trans hs₁, hm₂.holds, ?_⟩
  · simp only [moveSingleton, handle_node, he₁, bind, Except.bind]
    exact he₂
  · intro z hz
    rw [hm₂.others z (hy ▸ hz), hp₁.look_eq hs₁ hz]
    rfl

theorem tracks_nestSingletons (hφ : ∀ k, N ≤ k → φ k = 0) :
    Tracks N φ nestSingletonsIn Pass.nestSingletons.rule := by
  intro f above parent h c n cs hN hp hc
  have ho := hp.holds _ (List.mem_singleton_self _)
  have hd : (Outline.node h c n cs).handles.Nodup := by simpa using hp.nodup
  have hkinds := kinds_of_holds ((holds_node ..).mp ho).2
  have hmethods := picked_handles Kind.isSingletonMethod cs
  change _ = (cs.filter isSingletonMethod).map handle at hmethods
  by_cases hany : cs.any isSingletonMethod = true
  · have hne : ((cs.filter isSingletonMethod).map handle).isEmpty = false := by
      rw [List.isEmpty_map, List.isEmpty_eq_false_iff_exists_mem]
      obtain ⟨x, hx, hs⟩ := List.any_eq_true.mp hany
      exact ⟨x, List.mem_filter.mpr ⟨hx, hs⟩⟩
    have hτ : ∀ x, x.isSingletonMethod = true → (clearSingleton x).handles = x.handles := by
      intro x hx
      obtain ⟨h, m, n, cs, rfl⟩ := leaf_of_isSingletonMethod hx
      simp [clearSingleton]
    have hrename : ∀ x, x.isSingletonMethod = true →
        (clearSingleton x).rename φ = clearSingleton (x.rename φ) := by
      intro x hx
      obtain ⟨h, m, n, cs, rfl⟩ := leaf_of_isSingletonMethod hx
      simp [clearSingleton]
    obtain ⟨f₁, f', he₁, he, hpatch⟩ := nest_patches isSingletonMethod clearSingleton ho hd hc
      (d := .scope .singleton) rfl hτ (takesIn_moveSingleton fun x hx => (List.mem_filter.mp hx).2)
    refine ⟨f', _, ?_, hpatch, map_rename_gathered clearSingleton (isSingletonMethod_rename φ) hrename
      hany (hφ _ hN)⟩
    simp only [nestSingletonsIn, hkinds, hmethods, hne, he₁, bind, Except.bind]
    exact he
  · have hnone : ∀ x ∈ cs, x.isSingletonMethod = false := by simpa using hany
    have hnil : cs.filter isSingletonMethod = [] := by simpa using hnone
    refine ⟨f, cs, ?_, Patches.refl hp.holds hp.nodup, ?_⟩
    · simp only [nestSingletonsIn, hkinds, hmethods, hnil, bind, Except.bind]
      rfl
    · refine (gathered_of_none ?_).symm
      intro x hx
      obtain ⟨y, hy, rfl⟩ := List.mem_map.mp hx
      rw [isSingletonMethod_rename, hnone y hy]

theorem gather_section (v : Visibility) (ho : (node h c n cs).Holds f.look parent)
    (hd : (node h c n cs).handles.Nodup) (hc : c.isContainer = true) (hφ : φ f.size = 0) :
    ∃ f' cs', gather h (.visibilityGroup v) f ((cs.filter (hasVisibility v)).map handle) = .ok f' ∧
      Patches f f' parent [.node h c n cs] [.node h c n cs'] ∧
      cs'.map (rename φ) =
        gathered (.visibilityGroup v) (hasVisibility v) id (cs.map (rename φ)) ∧
      ∀ w, w ≠ v → cs'.filter (hasVisibility w) = cs.filter (hasVisibility w) := by
  by_cases hany : cs.any (hasVisibility v) = true
  · have hne : ((cs.filter (hasVisibility v)).map handle).isEmpty = false := by
      rw [List.isEmpty_map, List.isEmpty_eq_false_iff_exists_mem]
      obtain ⟨x, hx, hs⟩ := List.any_eq_true.mp hany
      exact ⟨x, List.mem_filter.mpr ⟨hx, hs⟩⟩
    obtain ⟨f₁, f', he₁, he, hpatch⟩ := nest_patches (hasVisibility v) id ho hd hc
      (d := .visibilityGroup v) rfl (fun _ _ => rfl) takesIn_attach
    refine ⟨f', _, ?_, hpatch, map_rename_gathered id (hasVisibility_rename φ v) (fun _ _ => rfl) hany
      hφ, ?_⟩
    · simp only [gather, hne, he₁, bind, Except.bind]
      exact he
    · intro w hw
      have hgroup : [node f.size (.visibilityGroup v) {} ((cs.filter (hasVisibility v)).map id)].filter
          (hasVisibility w) = [] := rfl
      rw [List.filter_append, hgroup, List.append_nil, List.filter_filter]
      refine List.filter_congr fun x _ => ?_
      by_cases hx : x.kind.visibility? = some w
      · simp [hasVisibility, hx, hw]
      · simp [hasVisibility, hx]
  · have hnone : ∀ x ∈ cs, x.hasVisibility v = false := by simpa using hany
    have hnil : cs.filter (hasVisibility v) = [] := by simpa using hnone
    refine ⟨f, cs, ?_, Patches.refl (by simpa using ho) (by simpa using hd), ?_, fun _ _ => rfl⟩
    · rw [hnil]
      rfl
    · refine (gathered_of_none ?_).symm
      intro x hx
      obtain ⟨y, hy, rfl⟩ := List.mem_map.mp hx
      rw [hasVisibility_rename, hnone y hy]

theorem gather_sections (hφ : ∀ k, N ≤ k → φ k = 0) (hN : N ≤ f.size) {vs : List Visibility}
    (hvs : vs.Nodup) {ds : List Outline}
    (ho : (node h c n ds).Holds f.look parent) (hd : (node h c n ds).handles.Nodup)
    (hc : c.isContainer = true)
    (hds : ∀ v ∈ vs, ds.filter (hasVisibility v) = cs.filter (hasVisibility v)) :
    ∃ f' ds', vs.foldlM (fun f v => gather h (.visibilityGroup v) f
        ((cs.filter (hasVisibility v)).map handle)) f = .ok f' ∧
      Patches f f' parent [.node h c n ds] [.node h c n ds'] ∧
      ds'.map (rename φ) = vs.foldl
        (fun cs v => gathered (.visibilityGroup v) (hasVisibility v) id cs) (ds.map (rename φ)) := by
  induction vs generalizing f ds with
  | nil => exact ⟨f, ds, rfl, Patches.refl (by simpa using ho) (by simpa using hd), rfl⟩
  | cons v vs ih =>
      rw [List.nodup_cons] at hvs
      -- The members were chosen in advance. No group takes what another one is made for.
      obtain ⟨f₁, ds₁, he₁, hp₁, hds₁, hkeep₁⟩ := gather_section v ho hd hc (hφ _ hN)
      have hleft : ∀ w ∈ vs, ds₁.filter (hasVisibility w) = cs.filter (hasVisibility w) := by
        intro w hw
        rw [hkeep₁ w, hds w (List.mem_cons_of_mem _ hw)]
        rintro rfl
        exact hvs.1 hw
      obtain ⟨f', ds', he, hp, hds'⟩ := ih (Nat.le_trans hN hp₁.size) hvs.2
        (hp₁.holds _ (List.mem_singleton_self _)) (by simpa using hp₁.nodup) hleft
      refine ⟨f', ds', ?_, hp₁.trans hp, ?_⟩
      · rw [hds v List.mem_cons_self] at he₁
        rw [List.foldlM_cons, he₁]
        exact he
      · rw [hds', hds₁, List.foldl_cons]

theorem tracks_nestVisibilities (hφ : ∀ k, N ≤ k → φ k = 0) :
    Tracks N φ nestVisibilitiesIn Pass.nestVisibilities.rule := by
  intro f above parent h c n cs hN hp hc
  have ho := hp.holds _ (List.mem_singleton_self _)
  have hd : (Outline.node h c n cs).handles.Nodup := by simpa using hp.nodup
  cases hinside : c.within (insideOf above) with
  | true =>
      refine ⟨f, cs, ?_, Patches.refl hp.holds hp.nodup, rfl⟩
      simp only [nestVisibilitiesIn, hp.inVisibilityGroup, hinside, bind, Except.bind]
      rfl
  | false =>
      have hkinds := kinds_of_holds ((holds_node ..).mp ho).2
      have hall : Visibility.all.Nodup := by decide
      obtain ⟨f', cs', he, hpatch, hrename⟩ := gather_sections hφ hN hall ho hd hc fun _ _ => rfl
      refine ⟨f', cs', ?_, hpatch, hrename⟩
      simp only [nestVisibilitiesIn, hp.inVisibilityGroup, hinside, hkinds, bind, Except.bind]
      refine Eq.trans ?_ he
      have hmembers (v : Visibility) := picked_handles (fun k => decide (k.visibility? = some v)) cs
      simp only [hmembers]
      rfl

end Reconcile
