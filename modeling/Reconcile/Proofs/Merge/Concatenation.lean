import Reconcile.Proofs.Merge.Accord
import Reconcile.Proofs.Merge.Copying
import Reconcile.Proofs.Merge.Outcome
import Reconcile.Proofs.Normal.Rework

namespace Reconcile

namespace Forest

/-- No identity key belongs to a node of one tree and to a node of the other one. -/
def Unrelated (f g : Forest) : Prop :=
  ∃ o x, f.outline root = .ok o ∧ g.outline root = .ok x ∧
    ∀ h ∈ o.handles, ∀ k ∈ x.handles, f.NodesApart g h k

instance (f g : Forest) : Decidable (f.Unrelated g) :=
  decidable_of_iff (∃ o ∈ (f.outline root).toOption, ∃ x ∈ (g.outline root).toOption,
    ∀ h ∈ o.handles, ∀ k ∈ x.handles, f.NodesApart g h k)
    (by simp only [mem_toOption, Unrelated]; grind)

def sampleGroups : Forest :=
  ⟨#[{ kind := .plain .tree, children := [1, 3] },
    { kind := .plain (.group .scopesAndConstants), notes := { comments := ["b"] },
      parent := some root, children := [2] },
    { kind := .plain (.leaf (.constant "B" "1")), parent := some 1 },
    { kind := .plain (.scope (.classNamed "::C" none)), notes := { comments := ["c"] },
      parent := some root, children := [4] },
    { kind := .plain (.visibilityGroup .priv), notes := { comments := ["d", "c"] },
      parent := some 3, children := [5] },
    { kind := .plain (.leaf (.constant "B" "2")), parent := some 4 }]⟩

variable {f g : Forest} {o x : Outline}

theorem Shows.apart_of_unrelated (hf : f.Shows o) (hg : g.Shows x) (hu : f.Unrelated g) :
    ∀ e ∈ o.census "", ∀ e' ∈ x.census "", e.Apart e' := by
  obtain ⟨o', x', ho', hx', hu⟩ := hu
  cases hf.outline.symm.trans ho'
  cases hg.outline.symm.trans hx'
  intro e he e' he'
  exact hu _ (Outline.handle_mem_of_census he) _ (Outline.handle_mem_of_census he') _ _
    (hf.keys_of_mem he) (hg.keys_of_mem he')

end Forest

namespace Merge

open Outline (plug)

variable {o : Options} {m : Notes} {ds os : List Outline} {P Q : Draft}

/-- `Q` is `P` with flat copies of `os` at the end of the root. -/
structure Appends (o : Options) (m : Notes) (ds os : List Outline) (P Q : Draft) : Prop where
  runs : Runs o P (os.flatMap (Outline.script "")) Q
  outline : ∃ es, es.map Outline.forget = (os.flatMap Outline.flat).map Outline.forget ∧
    Q.outline = .node Forest.root .tree (m.addComments (os.flatMap Outline.remarks)) (ds ++ es)
  conflicts : Q.conflicts = P.conflicts

theorem Draft.site_root (hen : P.entered = []) (ho : P.outline = .node Forest.root .tree m ds) :
    P.Site [] .tree m ds where
  outline := by rw [ho, current, hen]; rfl
  container := rfl
  name := by rw [name, hen]; rfl

theorem exists_copy_at_root {x : Outline} (hv : P.Valid) (hen : P.entered = [])
    (ho : P.outline = .node Forest.root .tree m ds) (hs : x.sound = true)
    (hc : x.conflictFree = true) (hd : x.handles.Nodup) (hu : P.Unused (x.census ""))
    (ha : (x.census "").Pairwise Entry.Apart) :
    ∃ Q φ, Copies o φ [] .tree m ds [x] P Q := by
  have hname : P.name = "" := by rw [Draft.name, hen]; rfl
  have hn : x.declared.Nodup := hd.sublist (Outline.sublist_handles_census "" x)
  have haw : P.Awaits (fun h => P.next + x.declared.idxOf h) [] .tree m ds [x] := by
    refine ⟨hv, Draft.site_root hen ho, ?_, ?_, ?_⟩
    · rwa [hname, List.flatMap_singleton]
    · rwa [hname, List.flatMap_singleton]
    · rw [List.flatMap_singleton]
      exact numbers_idxOf hn P.next
  obtain ⟨Q, hQ⟩ := exists_copies (o := o) hs hc haw
  exact ⟨Q, _, hQ⟩

/-- Trees whose keys are not in use and that have none in common are copied one after the other. -/
theorem exists_extension_of_unused (o : Options) (hv : P.Valid) (hen : P.entered = [])
    (ho : P.outline = .node Forest.root .tree m ds)
    (hos : ∀ x ∈ os, x.sound = true ∧ x.conflictFree = true ∧ x.handles.Nodup)
    (hu : P.Unused (os.flatMap (Outline.census "")))
    (ha : (os.flatMap (Outline.census "")).Pairwise Entry.Apart) :
    ∃ Q, Appends o m ds os P Q := by
  induction os generalizing P m ds with
  | nil =>
      refine ⟨P, .nil P, ⟨[], rfl, ?_⟩, rfl⟩
      simpa [Notes.addComments_nil] using ho
  | cons x os ih =>
      obtain ⟨hs, hc, hd⟩ := hos x (by simp)
      rw [List.flatMap_cons] at hu ha
      rw [List.pairwise_append] at ha
      -- Once the first tree has been copied, the keys of the others are still not in use.
      obtain ⟨R, φ, hR⟩ := exists_copy_at_root (o := o) hv hen ho hs hc hd
        (hu.mono (List.subset_append_left _ _)) ha.1
      have hname : P.name = "" := by rw [Draft.name, hen]; rfl
      have hroot : P.current = Forest.root := by rw [Draft.current, hen]; rfl
      have hru : R.Unused (os.flatMap (Outline.census "")) := by
        intro e he y hy hk
        rcases hR.index y hy with hy | ⟨e', he', hk'⟩
        · exact hu e (List.mem_append_right _ he) y hy hk
        · rw [hname, List.flatMap_singleton] at he'
          exact ha.2.2 e' he' e he hk' hk
      have hro := hR.outline
      rw [List.flatMap_singleton, List.flatMap_singleton, plug, hroot] at hro
      obtain ⟨Q, hQ⟩ := ih (hR.runs.valid hv) (hR.entered.trans hen) hro
        (fun y hy => hos y (by simp [hy])) hru ha.2.1
      obtain ⟨es, hes, hqo⟩ := hQ.outline
      have hrun := hR.runs
      rw [hname, List.flatMap_singleton] at hrun
      refine ⟨Q, hrun.append hQ.runs, ⟨x.flat.map (Outline.rename φ) ++ es, ?_, ?_⟩,
        hQ.conflicts.trans hR.conflicts⟩
      · rw [List.map_append, hes, List.map_map, List.flatMap_cons, List.map_append]
        congr 1
        exact List.map_congr_left fun y _ => y.forget_rename φ
      · rw [hqo, List.flatMap_cons, Notes.addComments_append, List.append_assoc]

section

variable {trees : List Forest}

theorem pairwise_apart_of_unrelated (h : List.Forall₂ Forest.Shows trees os)
    (hd : ∀ t ∈ trees, t.DuplicateFree) (hu : trees.Pairwise Forest.Unrelated) :
    (os.flatMap (Outline.census "")).Pairwise Entry.Apart := by
  induction h with
  | nil => exact .nil
  | @cons tree y trees os ht hts ih =>
      rw [List.pairwise_cons] at hu
      rw [List.flatMap_cons, List.pairwise_append]
      refine ⟨ht.pairwise_apart (hd tree List.mem_cons_self),
        ih (fun t hm => hd t (List.mem_cons_of_mem _ hm)) hu.2, ?_⟩
      intro e he e' he'
      obtain ⟨y, hy, he'⟩ := List.mem_flatMap.mp he'
      obtain ⟨t, hm, hty⟩ := exists_of_forall₂ hts.flip y hy
      exact ht.apart_of_unrelated hty (hu.1 t hm) e he e' he'

/-- Unrelated trees without duplicates are put one behind the other: the children of the output's
root are those of the first tree, dissolved containers aside, then those of the second one, and so
on. Nothing but handles tells them from their originals, and nothing is recorded. -/
theorem unrelated_concatenate (o : Options) (trees : List Forest) (hw : ∀ t ∈ trees, t.WellFormed)
    (hc : ∀ t ∈ trees, t.ConflictFree) (hd : ∀ t ∈ trees, t.DuplicateFree)
    (hu : trees.Pairwise Forest.Unrelated) : ∃ os out es, readings trees = .ok os ∧
      mergeAll o trees = .ok out ∧ out.conflicts = [] ∧
      out.forest.outline Forest.root = .ok (.node Forest.root .tree
        { comments := union [] (os.flatMap Outline.remarks) } es) ∧
      es.map Outline.forget = (os.flatMap Outline.flat).map Outline.forget := by
  obtain ⟨os, hos, hfree⟩ := exists_readings hc
  have hshows := forall₂_shows hos hw
  have hsound : ∀ x ∈ os, x.sound = true ∧ x.conflictFree = true ∧ x.handles.Nodup := by
    intro x hx
    obtain ⟨t, -, ht⟩ := exists_of_forall₂ hshows.flip x hx
    exact ⟨ht.sound, hfree x hx, ht.nodup⟩
  obtain ⟨Q, hQ⟩ := exists_extension_of_unused o Draft.valid_empty rfl rfl hsound
    (Draft.unused_empty _) (pairwise_apart_of_unrelated hshows hd hu)
  obtain ⟨out, O, h⟩ := hQ.runs.exists_outcome hos hfree
  obtain ⟨es, hes, ho⟩ := hQ.outline
  rw [List.nil_append] at ho
  have hO : O = Q.outline :=
    h.coalesces.plain (h.runs.conflictFree_of_silent Draft.valid_empty hQ.conflicts rfl)
  refine ⟨os, out, es, hos, h.merged, h.conflicts.trans hQ.conflicts, ?_, hes⟩
  rw [h.outline, hO, ho]
  rfl

theorem unrelated_concatenate_sample : ∃ os out es,
    readings [.sampleGroups, .sampleModule] = .ok os ∧
      mergeAll ⟨⟨"left", "right"⟩, .right⟩ [.sampleGroups, .sampleModule] = .ok out ∧
      out.conflicts = [] ∧ out.forest.outline Forest.root = .ok (.node Forest.root .tree
        { comments := union [] (os.flatMap Outline.remarks) } es) ∧
      es.map Outline.forget = (os.flatMap Outline.flat).map Outline.forget :=
  unrelated_concatenate ⟨⟨"left", "right"⟩, .right⟩ [.sampleGroups, .sampleModule] (by decide)
    (by decide) (by decide) (by decide)

end

end Merge

end Reconcile
