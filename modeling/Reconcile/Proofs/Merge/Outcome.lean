import Reconcile.Proofs.Merge.Coalesced
import Reconcile.Proofs.Merge.Lasting
import Reconcile.Proofs.Merge.Run

namespace Reconcile.Merge

/-- A merge comes to an end: `Q` is the draft at the end of its run, `O` the outline of the output. -/
structure Outcome (o : Options) (trees : List Forest) (os : List Outline) (Q : Draft) (out : Output)
    (O : Outline) : Prop where
  readings : readings trees = .ok os
  free : ∀ x ∈ os, x.conflictFree = true
  runs : Runs o .empty (os.flatMap (Outline.script "")) Q
  valid : Q.Valid
  merged : mergeAll o trees = .ok out
  conflicts : out.conflicts = Q.conflicts
  holds : O.Holds out.forest.look none
  nodup : O.handles.Nodup
  root : O.handle = Forest.root ∧ O.content? = some .tree
  loose : ∀ x ∈ Q.loose, x.Holds out.forest.look none
  coalesces : Q.outline.Coalesces O

variable {o : Options} {trees : List Forest} {os : List Outline} {Q : Draft} {out : Output}
  {O : Outline}

theorem Outcome.outline (h : Outcome o trees os Q out O) : out.forest.outline Forest.root = .ok O := by
  rw [← h.root.1]
  exact Forest.outline_of_holds h.holds h.nodup

theorem Outcome.coalesced (h : Outcome o trees os Q out O) :
    O = Q.outline.coalescedWithin (2 * Q.next) := by
  obtain ⟨s, hs, hd⟩ := h.runs.depicts State.Depicts.empty Draft.valid_empty
  rw [map_snd_scripts] at hs
  have hfold := (foldlM_merge h.readings).trans hs
  obtain ⟨f, hf, hpatch⟩ := Forest.coalesce_patches hd.outline h.valid.nodup_outline h.valid.sound
    h.valid.root.1 h.valid.root.2
  have hout : out.forest = f := by
    have hm := h.merged
    simp only [mergeAll, hfold, bind, Except.bind, hf] at hm
    cases hm
    rfl
  obtain ⟨ho, hn, hh⟩ := hpatch.single
  have houtline := Forest.outline_of_holds ho hn
  rw [hh.trans h.valid.root.1, ← hout, h.outline] at houtline
  cases houtline
  rw [Forest.visitDepth, hd.size]

theorem Runs.tidy {es : List (String × Event)} (hr : Runs o .empty es Q) : Q.outline.tidy = true :=
  hr.invariant (I := fun P => P.outline.tidy = true) Draft.valid_empty (fun _ hs => hs.lasts.tidy)
    (by simp [Draft.empty])

theorem State.Depicts.exists_output {s : State} (hd : s.Depicts Q) (hv : Q.Standing)
    (ht : Q.outline.tidy = true) (hfold : trees.foldlM (State.merge o) {} = .ok s) :
    ∃ out O, mergeAll o trees = .ok out ∧ out.conflicts = Q.conflicts ∧
      O.Holds out.forest.look none ∧ O.handles.Nodup ∧
      (O.handle = Forest.root ∧ O.content? = some .tree) ∧
      (∀ x ∈ Q.loose, x.Holds out.forest.look none) ∧ Q.outline.Coalesces O := by
  obtain ⟨hn, -, hdis⟩ := List.nodup_append'.mp hv.nodup
  obtain ⟨f', he, hpatch⟩ := Forest.coalesce_patches hd.outline hn hv.sound hv.root.1 hv.root.2
  obtain ⟨ho', hn', hh⟩ := hpatch.single
  have hcoal := Outline.coalesces s.forest.visitDepth hv.sound ht
  refine ⟨⟨f', s.conflicts⟩, _, ?_, hd.conflicts, ho', hn', ?_, ?_, hcoal⟩
  · simp only [mergeAll, hfold, bind, Except.bind, he]
    rfl
  · rw [hcoal.content]
    exact ⟨hh.trans hv.root.1, hv.root.2⟩
  · intro x hx
    refine hpatch.bystander (hd.loose x hx) ?_
    intro k hk ho
    rw [List.flatMap_singleton] at ho
    exact hdis ho (Outline.handles_subset hx hk)

/-- Whatever run there is through the trees, it is the one that the merge makes. -/
theorem Runs.exists_outcome (hos : Merge.readings trees = .ok os)
    (hfree : ∀ x ∈ os, x.conflictFree = true)
    (hr : Runs o .empty (os.flatMap (Outline.script "")) Q) :
    ∃ out O, Outcome o trees os Q out O := by
  obtain ⟨s, hs, hd⟩ := hr.depicts State.Depicts.empty Draft.valid_empty
  rw [map_snd_scripts] at hs
  have hv := hr.valid Draft.valid_empty
  obtain ⟨out, O, hout, hc, ho, hn, hroot, hloose, hcoal⟩ :=
    hd.exists_output hv.standing hr.tidy ((foldlM_merge hos).trans hs)
  exact ⟨out, O, hos, hfree, hr, hv, hout, hc, ho, hn, hroot, hloose, hcoal⟩

/-- Trees without conflicts can be merged, whatever the labels are. -/
theorem exists_outcome (hk : o.keep ≠ .right) (hc : ∀ t ∈ trees, t.ConflictFree) :
    ∃ os Q out O, Outcome o trees os Q out O := by
  obtain ⟨os, hos, hfree⟩ := exists_readings hc
  obtain ⟨Q, -, hr, -⟩ := exists_run hk hfree
  obtain ⟨out, O, h⟩ := hr.exists_outcome hos hfree
  exact ⟨os, Q, out, O, h⟩

end Reconcile.Merge
