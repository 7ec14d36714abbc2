import Reconcile.Proofs.Normal.Nesting
import Reconcile.Proofs.Normal.Sorting

namespace Reconcile

open Forest Outline

variable {f : Forest} {parent : Option Handle} {o : Outline} {h : Handle} {c : Content} {n : Notes}
  {cs cs' : List Outline}

theorem isMarker_of_holds (ho : o.Holds f.look parent) : f.isMarker o.handle = .ok o.isMarker := by
  simp only [Forest.isMarker, ho.kind, bind, Except.bind]
  rfl

theorem sortKey_of_holds (ho : o.Holds f.look parent) : f.sortKey o.handle = .ok o.sortKey := by
  cases o with
  | node h c n cs =>
      simp only [Forest.sortKey, ho.kind, bind, Except.bind]
      rfl
  | conflict h form labels n l r =>
      have hl := ((holds_conflict ..).mp ho).2.1.kind
      cases form with
      | headers =>
          simp only [Forest.sortKey, ho.kind, Outline.kind, hl, bind, Except.bind]
          rfl
      | declarations =>
          simp only [Forest.sortKey, ho.kind, bind, Except.bind]
          rfl

@[simp] theorem isMarker_rename (φ : Handle → Handle) (o : Outline) :
    (o.rename φ).isMarker = o.isMarker := by
  cases o with
  | node => rw [rename_node]; rfl
  | conflict => rfl

@[simp] theorem sortKey_rename (φ : Handle → Handle) (o : Outline) :
    (o.rename φ).sortKey = o.sortKey := by
  cases o with
  | node => rw [rename_node]; rfl
  | conflict h form labels n l r =>
      cases form with
      | headers =>
          cases l with
          | node => simp only [rename_conflict, rename_node]; rfl
          | conflict => rfl
      | declarations => rfl

theorem reorder_patches (ho : (node h c n cs).Holds f.look parent)
    (hd : (node h c n cs).handles.Nodup) (hp : cs'.Perm cs) :
    ∃ f', f.reorder h (cs'.map handle) = .ok f' ∧
      Patches f f' parent [.node h c n cs] [.node h c n cs'] := by
  have ho' := (holds_node ..).mp ho
  have hperm : (node h c n cs').handles.Perm (node h c n cs).handles := by
    rw [handles_node, handles_node]
    exact (hp.flatMap_right handles).cons h
  obtain ⟨f', he, hs, hl⟩ := update_spec ho'.1 fun n => { n with children := cs'.map handle }
  refine ⟨f', he, ?_, rfl, Nat.le_of_eq hs.symm, ?_, ?_, ?_⟩
  · intro y hy
    cases List.mem_singleton.mp hy
    rw [holds_node]
    refine ⟨by rw [hl, Function.update_self], fun x hx => ?_⟩
    apply (ho'.2 x (hp.mem_iff.mp hx)).congr
    intro k hk
    rw [hl, Function.update_of_ne]
    rintro rfl
    rw [handles_node, List.nodup_cons] at hd
    exact hd.1 (handles_subset (hp.mem_iff.mp hx) hk)
  · intro k _ hk
    rw [hl, Function.update_of_ne]
    rintro rfl
    exact hk (by simp)
  · simpa using hperm.nodup_iff.mpr hd
  · intro k hk
    rw [List.flatMap_singleton] at hk ⊢
    exact Or.inl (hperm.mem_iff.mp hk)

theorem tracks_sort (N : Nat) (φ : Handle → Handle) : Tracks N φ sortIn Pass.sort.rule := by
  intro f above parent h c n cs _ hp hc
  have ho := hp.holds _ (List.mem_singleton_self _)
  have hd : (Outline.node h c n cs).handles.Nodup := by simpa using hp.nodup
  have hcs := ((holds_node ..).mp ho).2
  have hmarkers : (cs.map handle).mapM f.isMarker = .ok (cs.map Outline.isMarker) :=
    mapM_handles fun o hm => isMarker_of_holds (hcs o hm)
  have hrename : (cs.map (rename φ)).any isMarker = cs.any isMarker := by
    simp only [List.any_map, Function.comp_def, isMarker_rename]
  have hany : (cs.map Outline.isMarker).any id = cs.any isMarker := by
    simp only [List.any_map, Function.comp_def, id]
  cases hmarker : cs.any isMarker with
  | true =>
      refine ⟨f, cs, ?_, Patches.refl hp.holds hp.nodup, (if_pos (hrename.trans hmarker)).symm⟩
      simp only [sortIn, hmarkers, hany, hmarker, bind, Except.bind]
      rfl
  | false =>
      obtain ⟨f', he, hpatch⟩ := reorder_patches ho hd (perm_sortBy _ cs)
      refine ⟨f', sorted cs, ?_, hpatch, ?_⟩
      · have hkeys : (cs.map handle).mapM (fun c => return (← f.sortKey c, c)) =
            .ok (cs.map fun o => (o.sortKey, o.handle)) := by
          apply mapM_handles
          intro o hm
          rw [sortKey_of_holds (hcs o hm)]
          rfl
        have hsort : sortBy (fun a b => a.1.le b.1) (cs.map fun o => (o.sortKey, o.handle)) =
            (sorted cs).map fun o => (o.sortKey, o.handle) := (map_sortBy (fun _ _ => rfl) cs).symm
        simp only [bind, Except.bind] at hkeys
        simp only [sortIn, hmarkers, hany, hmarker, hkeys, hsort, List.map_map, bind, Except.bind]
        exact he
      · have hrule : Pass.sort.rule (c.within (insideOf above)) c (cs.map (rename φ)) =
            sorted (cs.map (rename φ)) := if_neg (by simp [hrename, hmarker])
        rw [hrule]
        apply map_sortBy
        intro a b
        rw [sortKey_rename, sortKey_rename]

end Reconcile
