import Reconcile.Proofs.Merge.Accord
import Reconcile.Proofs.Merge.Holder
import Reconcile.Proofs.Merge.Outcome
import Reconcile.Proofs.Merge.View

namespace Reconcile.Merge

open Outline (plug)

namespace View

def handles (v : View) : List Handle :=
  v.outlines.flatMap Outline.handles ++ (v.index.newest.map (·.2) ++ v.entered.map (·.1))

def rename (φ : Handle → Handle) (v : View) : View where
  outlines := v.outlines.map (Outline.rename φ)
  index := ⟨v.index.newest.map fun x => (x.1, φ x.2)⟩
  entered := v.entered.map fun x => (φ x.1, x.2)

variable {φ ψ : Handle → Handle} (v : View)

theorem handles_rename : (v.rename φ).handles = v.handles.map φ := by
  rw [handles, handles, rename, List.map_append, List.map_append, List.flatMap_map, List.map_flatMap,
    List.flatMap_congr fun o _ => o.handles_rename]
  simp only [List.map_map, Function.comp_def]

theorem rename_congr {v : View} (h : ∀ k ∈ v.handles, φ k = ψ k) : v.rename φ = v.rename ψ := by
  simp only [handles, List.mem_append, List.mem_flatMap, List.mem_map] at h
  have ho : v.outlines.map (Outline.rename φ) = v.outlines.map (Outline.rename ψ) :=
    List.map_congr_left fun o ho => Outline.rename_congr fun k hk => h k (Or.inl ⟨o, ho, hk⟩)
  have hi : v.index.newest.map (fun x => (x.1, φ x.2)) = v.index.newest.map fun x => (x.1, ψ x.2) :=
    List.map_congr_left fun x hx => by rw [h x.2 (Or.inr (Or.inl ⟨x, hx, rfl⟩))]
  have he : v.entered.map (fun x => (φ x.1, x.2)) = v.entered.map fun x => (ψ x.1, x.2) :=
    List.map_congr_left fun x hx => by rw [h x.1 (Or.inr (Or.inr ⟨x, hx, rfl⟩))]
  rw [rename, rename, ho, hi, he]

theorem name_rename : (v.rename φ).name = v.name := by
  rw [name, name, rename, List.head?_map, Option.map_map]
  rfl

theorem current_rename (hroot : φ Forest.root = Forest.root) : (v.rename φ).current = φ v.current := by
  rw [current, current, rename, List.head?_map, Option.map_map]
  cases v.entered.head? with
  | none => exact hroot.symm
  | some x => rfl

theorem census_rename : (v.rename φ).census = v.census.map fun e => { e with handle := φ e.handle } := by
  rw [census, census, rename, List.flatMap_map, List.map_flatMap,
    List.flatMap_congr fun o _ => o.census_rename ""]

theorem recent_rename (key : String) :
    (v.rename φ).index.recent key = (v.index.recent key).map φ :=
  Draft.recent_map v.index φ key

theorem previous?_rename (keys : List String) :
    (v.rename φ).previous? keys = (v.previous? keys).map φ := by
  rw [previous?, previous?, List.map_findSome?]
  congr
  funext key
  rw [Index.last?, recent_rename, List.head?_map]
  rfl

variable (hφ : φ.Injective)
include hφ

theorem isScopeAt_rename (h : Handle) : (v.rename φ).isScopeAt (φ h) = v.isScopeAt h := by
  rw [isScopeAt, isScopeAt, census_rename, List.any_map]
  congr
  funext e
  simp [hφ.eq_iff]

theorem scopeUnder?_rename (key : String) :
    (v.rename φ).scopeUnder? key = (v.scopeUnder? key).map φ := by
  have hs : (v.rename φ).isScopeAt ∘ φ = v.isScopeAt := funext (v.isScopeAt_rename hφ)
  rw [scopeUnder?, scopeUnder?, recent_rename, List.find?_map, hs]

theorem contentAt_rename (h : Handle) : (v.rename φ).contentAt (φ h) = v.contentAt h := by
  rw [contentAt, contentAt, census_rename, List.find?_map, Option.map_map]
  simp only [Function.comp_def, hφ.eq_iff]

theorem rename_amend (h : Handle) (a : Amendment) : (v.amend h a).rename φ =
    (v.rename φ).amend (φ h) { a with added := a.added.map (Outline.rename φ) } := by
  rw [amend, amend, rename, rename, List.map_map, List.map_map]
  simp only [Function.comp_def, Outline.rename_amend hφ]

theorem rename_unite (h : Handle) (c : Content) (n : Notes) :
    (v.unite h c n).rename φ = (v.rename φ).unite (φ h) c n := by
  rw [unite, unite, contentAt_rename v hφ]
  split
  · exact v.rename_amend hφ h _
  · rfl

variable (hroot : φ Forest.root = Forest.root)
include hroot

theorem rename_grow (k : Handle) (c : Content) (n : Notes) :
    (v.grow k c n).rename φ = (v.rename φ).grow (φ k) c n := by
  have ha := v.rename_amend hφ v.current { added := [.node k c n []] }
  rw [← v.current_rename hroot] at ha
  have hi : ((v.index.insertAll (c.keys v.name) k).newest.map fun x => (x.1, φ x.2)) =
      ((v.rename φ).index.insertAll (c.keys v.name) (φ k)).newest := by
    rw [Draft.newest_insertAll, Draft.newest_insertAll, List.map_append, List.map_reverse, List.map_map]
    rfl
  rw [grow, grow, name_rename, rename, mk.injEq]
  exact ⟨congrArg outlines ha, congrArg Index.mk hi, rfl⟩

theorem rename_step (k : Handle) (e : Event) :
    (v.step k e).rename φ = (v.rename φ).step (φ k) e := by
  cases e with
  | enter s n =>
      rw [step, step, name_rename, scopeUnder?_rename v hφ]
      cases v.scopeUnder? (s.qualify v.name) with
      | none =>
          simp only [Option.map_none, ← v.rename_grow hφ hroot]
          rfl
      | some h =>
          simp only [Option.map_some, ← v.rename_unite hφ]
          rfl
  | leave =>
      rw [step, step, rename, rename, List.map_tail]
  | declare l n =>
      rw [step, step, name_rename, previous?_rename]
      cases v.previous? (l.keys v.name) with
      | none => exact v.rename_grow hφ hroot k (.leaf l) n
      | some h => exact v.rename_unite hφ h (.leaf l) n
  | remark comments =>
      rw [step, step, v.current_rename hroot]
      exact v.rename_amend hφ _ _
  | carry => rfl

end View

variable {o o' : Options} {P Q P' Q' : Draft} {e : Event} {es : List (String × Event)}

theorem Draft.Valid.lt_next (hv : P.Valid) {h : Handle} (hh : h ∈ P.view.handles) : h < P.next := by
  have hcensus {e : Entry} (he : e ∈ P.census) : e.handle ∈ P.outline.handles :=
    P.outline.declared_subset (List.mem_map_of_mem he)
  refine hv.fresh h (List.mem_append_left _ ?_)
  simp only [View.handles, view, List.mem_append, List.mem_flatMap, List.mem_map] at hh
  rcases hh with ⟨x, hx, hh⟩ | ⟨⟨key, k⟩, hx, rfl⟩ | ⟨x, hx, rfl⟩
  · exact Outline.resolved_subset hx hh
  · obtain ⟨e, he, rfl, -⟩ := mem_index hv hx
    exact hcensus he
  · obtain ⟨e, he, hh, -⟩ := hv.entered x hx
    exact hh ▸ hcensus he

theorem Draft.Valid.root_lt_next (hv : P.Valid) : Forest.root < P.next := by
  refine hv.fresh _ (List.mem_append_left _ ?_)
  rw [← hv.root.1]
  exact P.outline.handle_mem_handles

theorem exists_extension (hv : P.Valid) (hv' : P'.Valid) {φ : Equiv.Perm Handle}
    (hroot : φ Forest.root = Forest.root) (hφ : P.view.rename φ = P'.view) :
    ∃ ψ : Equiv.Perm Handle, ψ Forest.root = Forest.root ∧ ψ P.next = P'.next ∧
      P.view.rename ψ = P'.view := by
  have old {h : Handle} (hne : h ≠ P.next) (hlt : φ h < P'.next) :
      Equiv.swap (φ P.next) P'.next (φ h) = φ h :=
    Equiv.swap_apply_of_ne_of_ne (φ.injective.ne hne) (Nat.ne_of_lt hlt)
  refine ⟨φ.trans (Equiv.swap (φ P.next) P'.next), ?_, ?_, ?_⟩
  · refine (old (Nat.ne_of_lt hv.root_lt_next) ?_).trans hroot
    rw [hroot]
    exact hv'.root_lt_next
  · exact Equiv.swap_apply_left _ _
  · rw [← hφ]
    refine View.rename_congr fun h hh => old (Nat.ne_of_lt (hv.lt_next hh)) (hv'.lt_next ?_)
    rw [← hφ, View.handles_rename]
    exact List.mem_map_of_mem hh

/-- Two runs through the same events have the same view up to a renaming. -/
theorem Runs.exists_renaming (hr : Runs o P es Q) (hr' : Runs o' P' es Q') (hv : P.Valid)
    (hv' : P'.Valid) (φ : Equiv.Perm Handle) (hroot : φ Forest.root = Forest.root)
    (hφ : P.view.rename φ = P'.view) : ∃ ψ : Equiv.Perm Handle, Q.view.rename ψ = Q'.view := by
  induction hr generalizing P' φ with
  | nil =>
      cases hr'
      exact ⟨φ, hφ⟩
  | cons hs hr ih =>
      generalize hname : (_, _) :: _ = es' at hr'
      cases hr' with
      | nil => cases hname
      | cons hs' hr' =>
          simp only [List.cons.injEq, Prod.mk.injEq] at hname
          obtain ⟨⟨-, rfl⟩, rfl⟩ := hname
          obtain ⟨ψ, hroot', hnext, hψ⟩ := exists_extension hv hv' hroot hφ
          refine ih hr' (hs.valid hv) (hs'.valid hv') ψ hroot' ?_
          rw [hs.view hv, hs'.view hv', ← hψ, ← hnext]
          exact View.rename_step _ ψ.injective hroot' _ _

theorem Step.conflictFree (hk : o.keep = .left) (hs : Step o P e Q)
    (hf : P.outline.conflictFree = true) : Q.outline.conflictFree = true :=
  hs.conflictFree_of_silent (hs.conflicts_of_left hk) hf

/-- Keeping the left version is resolving to the left. -/
theorem left_resolves (labels labels' : Labels) (trees : List Forest)
    (hc : ∀ t ∈ trees, t.ConflictFree) : ∃ out out' O O' R,
      mergeAll ⟨labels, .both⟩ trees = .ok out ∧ out.forest.outline Forest.root = .ok O ∧
      mergeAll ⟨labels', .left⟩ trees = .ok out' ∧ out'.forest.outline Forest.root = .ok O' ∧
      O.resolved = [R] ∧ O'.same R = true := by
  obtain ⟨os, Q, out, O, h⟩ := @exists_outcome ⟨labels, .both⟩ trees (by simp) hc
  obtain ⟨os', Q', out', O', h'⟩ := @exists_outcome ⟨labels', .left⟩ trees (by simp) hc
  cases h.readings.symm.trans h'.readings
  have hplain : Q'.outline.conflictFree = true :=
    h'.runs.invariant (I := fun P => P.outline.conflictFree = true) Draft.valid_empty
      (fun _ hs => hs.conflictFree rfl) (by simp [Draft.empty])
  cases h'.coalesces.plain hplain
  obtain ⟨φ, hφ⟩ := h.runs.exists_renaming h'.runs Draft.valid_empty Draft.valid_empty
    (.refl _) rfl rfl
  have hout : Q.outline.resolved.map (Outline.rename φ) = Q'.outline.resolved :=
    congrArg View.outlines hφ
  rw [Outline.resolved_of_conflictFree hplain, ← h.coalesces.resolved] at hout
  obtain ⟨R, hR, hrename⟩ := List.map_eq_singleton_iff.mp hout
  refine ⟨out, out', O, Q'.outline, R, h.merged, h.outline, h'.merged, h'.outline, hR, ?_⟩
  rw [← hrename]
  exact R.same_rename

theorem left_resolves_constants : ∃ out out' O O' R,
    mergeAll {} [.ofConstant "A" "1", .ofConstant "A" "2"] = .ok out ∧
      out.forest.outline Forest.root = .ok O ∧
      mergeAll { keep := .left } [.ofConstant "A" "1", .ofConstant "A" "2"] = .ok out' ∧
      out'.forest.outline Forest.root = .ok O' ∧ O.resolved = [R] ∧ O'.same R = true :=
  left_resolves ⟨"left", "right"⟩ ⟨"left", "right"⟩ [.ofConstant "A" "1", .ofConstant "A" "2"]
    (by simp [Forest.conflictFree_ofConstant])

end Reconcile.Merge
