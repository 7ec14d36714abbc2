import Reconcile.Proofs.Forest.Amend
import Reconcile.Proofs.Forest.Flattening

namespace Reconcile.Outline

/-- The node `k` is `h` or is above it. -/
def Covers (o : Outline) (k h : Handle) : Prop := ∃ x ∈ o.subtrees, x.handle = k ∧ h ∈ x.handles

variable {o x y : Outline} {k h p new : Handle} {path : List Frame}

theorem handles_subset_of_subtree (hx : x ∈ o.subtrees) : x.handles ⊆ o.handles := by
  rw [← map_handle_subtrees, ← map_handle_subtrees]
  exact List.map_subset _ (subtrees_subset hx)

theorem Covers.mem (hc : o.Covers k h) : h ∈ o.handles := by
  obtain ⟨x, hx, -, hh⟩ := hc
  exact handles_subset_of_subtree hx hh

theorem covers_handle (hh : h ∈ o.handles) : o.Covers o.handle h := ⟨o, mem_subtrees_self o, rfl, hh⟩

theorem covers_self (hh : h ∈ o.handles) : o.Covers h h := by
  rw [← map_handle_subtrees, List.mem_map] at hh
  obtain ⟨x, hx, rfl⟩ := hh
  exact ⟨x, hx, rfl, x.handle_mem_handles⟩

theorem covers_node {c : Content} {n : Notes} {cs : List Outline} {a : Handle} :
    (node a c n cs).Covers k h ↔
      k = a ∧ h ∈ (node a c n cs).handles ∨ ∃ x ∈ cs, x.Covers k h := by
  simp only [Covers, subtrees_node, List.mem_cons, List.mem_flatMap, exists_eq_or_imp, handle_node,
    eq_comm (a := a)]
  grind

theorem eq_of_covers_handle (hd : o.handles.Nodup) (hc : o.Covers k o.handle) : k = o.handle := by
  obtain ⟨x, hx, rfl, hh⟩ := hc
  cases o with
  | node a c n cs =>
      rw [subtrees_node, List.mem_cons, List.mem_flatMap] at hx
      rcases hx with rfl | ⟨z, hz, hx⟩
      · rfl
      · rw [handles_node, List.nodup_cons] at hd
        exact absurd (handles_subset hz (handles_subset_of_subtree hx hh)) hd.1
  | conflict a form labels n l r =>
      rw [subtrees_conflict, List.mem_cons] at hx
      rcases hx with rfl | hx
      · rfl
      · rw [handles_conflict, List.nodup_cons] at hd
        refine absurd ?_ hd.1
        rw [List.mem_append] at hx ⊢
        exact hx.imp (handles_subset_of_subtree · hh) (handles_subset_of_subtree · hh)

theorem covers_fill (fr : Frame) : (fr.fill x).Covers k h ↔
    k = fr.handle ∧ h ∈ (fr.fill x).handles ∨ x.Covers k h ∨ ∃ y ∈ fr.siblings, y.Covers k h := by
  cases fr with
  | node a c n before after =>
      rw [Frame.fill, covers_node]
      simp only [List.mem_append, List.mem_cons, Frame.siblings, Frame.handle]
      grind
  | left a form labels n r =>
      simp only [Covers, Frame.fill, subtrees_conflict, List.mem_cons, List.mem_append,
        exists_eq_or_imp, handle_conflict, Frame.siblings, Frame.handle]
      grind

theorem mem_handles_fill (fr : Frame) :
    h ∈ (fr.fill x).handles ↔ h ∈ fr.handles ∨ h ∈ x.handles := by
  rw [(fr.handles_fill x).mem_iff, List.mem_append]

theorem Covers.of_plug (hxy : ∀ k, y.Covers k h → x.Covers k h) (hc : (plug path y).Covers k h) :
    (plug path x).Covers k h := by
  induction path generalizing x y with
  | nil => exact hxy k hc
  | cons fr path ih =>
      refine ih (fun k hk => ?_) hc
      rw [covers_fill, mem_handles_fill] at hk ⊢
      rcases hk with ⟨rfl, hh | hh⟩ | hk | hk
      · exact Or.inl ⟨rfl, Or.inl hh⟩
      · exact Or.inl ⟨rfl, Or.inr (hxy _ (covers_handle hh)).mem⟩
      · exact Or.inr (Or.inl (hxy k hk))
      · exact Or.inr (Or.inr hk)

theorem Covers.of_plug_new (hnew : new ∉ pathHandles path) (hp : p ∈ x.handles)
    (hxy : ∀ k, y.Covers k new → k = new ∨ x.Covers k p) (hc : (plug path y).Covers k new) :
    k = new ∨ (plug path x).Covers k p := by
  induction path generalizing x y with
  | nil => exact hxy k hc
  | cons fr path ih =>
      rw [pathHandles, List.flatMap_cons, List.mem_append, not_or] at hnew
      refine ih hnew.2 ((mem_handles_fill fr).mpr (Or.inr hp)) (fun k hk => ?_) hc
      rw [covers_fill] at hk ⊢
      rcases hk with ⟨rfl, -⟩ | hk | ⟨z, hz, hk⟩
      · exact Or.inr (Or.inl ⟨rfl, (mem_handles_fill fr).mpr (Or.inr hp)⟩)
      · exact (hxy k hk).imp_right fun hk => Or.inr (Or.inl hk)
      · refine absurd ?_ hnew.1
        exact List.mem_cons_of_mem _ (List.mem_flatMap.mpr ⟨z, hz, hk.mem⟩)

theorem covers_plug (path : List Frame) (hh : h ∈ x.handles) : (plug path x).Covers x.handle h :=
  ⟨x, subtrees_plug path (mem_subtrees_self x), rfl, hh⟩

theorem subtrees_rename (φ : Handle → Handle) (o : Outline) :
    (o.rename φ).subtrees = o.subtrees.map (rename φ) := by
  induction o with
  | node h c n cs ih =>
      rw [rename_node, subtrees_node, subtrees_node, List.map_cons, rename_node, List.flatMap_map,
        List.map_flatMap, List.flatMap_congr ih]
  | conflict h form labels n l r ihl ihr =>
      rw [rename_conflict, subtrees_conflict, subtrees_conflict, ihl, ihr]
      simp

/-- What is above a declaration after flattening, under new handles, was above it before. -/
theorem Covers.of_flat {φ : Handle → Handle} (ho : o.conflictFree = true)
    (hφ : ∀ a ∈ o.declared, ∀ b ∈ o.declared, φ a = φ b → a = b) (hx : x ∈ o.flat)
    (hk : k ∈ o.declared) (hh : h ∈ o.declared) (hc : (x.rename φ).Covers (φ k) (φ h)) :
    o.Covers k h := by
  obtain ⟨z, hz, hzk, hzh⟩ := hc
  rw [subtrees_rename] at hz
  obtain ⟨y, hy, rfl⟩ := List.mem_map.mp hz
  rw [handle_rename] at hzk
  rw [handles_rename] at hzh
  obtain ⟨a, ha, hah⟩ := List.mem_map.mp hzh
  have hdeclared : y.handles ⊆ o.declared := by
    rw [← handles_flat ho]
    exact List.Subset.trans (handles_subset_of_subtree hy) (handles_subset hx)
  cases hφ _ (hdeclared y.handle_mem_handles) _ hk hzk
  cases hφ _ (hdeclared ha) _ hh hah
  obtain ⟨w, hw, hwy, hsub⟩ := exists_subtree_of_flat ho (List.mem_flatMap.mpr ⟨x, hx, hy⟩)
  exact ⟨w, hw, hwy, hsub ha⟩

end Reconcile.Outline
