import Reconcile.Proofs.Merge.Coalescing
import Reconcile.Proofs.Merge.Upkeep
import Reconcile.Proofs.Normal.Idempotence
import Reconcile.Proofs.Normal.Upkeep

namespace Reconcile

def Tends (visit : Forest → Handle → Except Fault Forest) (above : List (Handle × Kind))
    (x : Outline) : Prop :=
  ∀ ⦃f : Forest⦄ ⦃parent : Option Handle⦄, Place f above parent [x] → f.WellFormed →
    ∀ f', visit f x.handle = .ok f' → f'.WellFormed

namespace Forest

variable {f f' : Forest} {above : List (Handle × Kind)} {parent : Option Handle} {x o : Outline}
  {xs cs : List Outline} {visit : Forest → Handle → Except Fault Forest}
  {R : Outline → Outline → Prop} {h : Handle} {c : Content} {n : Notes}

theorem visitAt_tends (hp : Place f above parent [x]) (hf : f.WellFormed)
    (hv : ∀ p ∈ x.opens above, Visits visit p.1 R p.2) (ht : ∀ p ∈ x.opens above, Tends visit p.1 p.2)
    (he : (do (← f.containersAt x.handle).foldlM visit f) = .ok f') : f'.WellFormed := by
  cases x with
  | node h c n cs =>
      have hh := (Outline.holds_node ..).mp (hp.holds _ (List.mem_singleton_self _))
      simp only [containersAt, Outline.handle_node, kind_of_look hh.1, bind, Except.bind] at he
      cases hc : c.isContainer with
      | false =>
          simp only [hc] at he
          cases he
          exact hf
      | true =>
          obtain ⟨f₁, y, he₁, -⟩ := hv (above, .node h c n cs) (by simp [Outline.opens, hc]) hp
          rw [show (Outline.node h c n cs).handle = h from rfl] at he₁
          simp only [hc, if_true, pure, Except.pure, List.foldlM_cons, List.foldlM_nil, he₁, bind,
            Except.bind] at he
          cases he
          exact ht (above, .node h c n cs) (by simp [Outline.opens, hc]) hp hf _ he₁
  | conflict h form labels n l r =>
      have hh := (Outline.holds_conflict ..).mp (hp.holds _ (List.mem_singleton_self _))
      have hsides := hp.sides
      obtain ⟨f₁, l', he₁, hl, -⟩ := hv (_, l) (by simp [Outline.opens]) hsides.head
      obtain ⟨f₂, r', he₂, -⟩ := hv (_, r) (by simp [Outline.opens]) (hsides.tail hl)
      have hf₁ := ht (_, l) (by simp [Outline.opens]) hsides.head hf f₁ he₁
      have hf₂ := ht (_, r) (by simp [Outline.opens]) (hsides.tail hl) hf₁ f₂ he₂
      simp only [containersAt, Outline.handle_conflict, kind_of_look hh.1, pure, Except.pure,
        List.foldlM_cons, List.foldlM_nil, bind, Except.bind, he₁, he₂] at he
      cases he
      exact hf₂

theorem visitEach_tends (hp : Place f above parent xs) (hf : f.WellFormed)
    (hv : ∀ x ∈ xs, ∀ p ∈ x.opens above, Visits visit p.1 R p.2)
    (ht : ∀ x ∈ xs, ∀ p ∈ x.opens above, Tends visit p.1 p.2)
    (he : visitEach visit f (xs.map Outline.handle) = .ok f') : f'.WellFormed := by
  induction xs generalizing f with
  | nil =>
      cases he
      exact hf
  | cons x xs ih =>
      obtain ⟨f₁, y, he₁, hx, -⟩ := visitAt_patches hp.head (hv x (by simp))
      have hf₁ := visitAt_tends hp.head hf (hv x (by simp)) (ht x (by simp)) he₁
      rw [visitEach, List.map_cons, List.foldlM_cons, he₁] at he
      exact ih (hp.tail hx) hf₁ (fun z hz => hv z (by simp [hz])) (fun z hz => ht z (by simp [hz])) he

theorem upward_tends (p : Pass) (depth : Nat) (above : List (Handle × Kind))
    (hc : c.isContainer = true) (hs : (Outline.node h c n cs).sound = true)
    (hd : (Outline.node h c n cs).handles.length ≤ depth) :
    Tends (upwardWithin p.change depth) above (.node h c n cs) := by
  induction depth generalizing above h c n cs with
  | zero => simp at hd
  | succ depth ih =>
      intro f parent hp hf f' he
      rw [Outline.sound_node] at hs
      have ho := hp.holds _ (List.mem_singleton_self _)
      have hh := ((Outline.holds_node ..).mp ho).1
      have hv : ∀ x ∈ cs, ∀ q ∈ x.opens ((h, .plain c) :: above),
          Visits (upwardWithin p.change depth) q.1
            (fun x y => y.forget = x.forget.rework p.rule (c.within (insideOf above))) q.2 := by
        intro x hx q hq
        obtain ⟨h', c', n', cs', hnode, hc', hsound, hle⟩ := Outline.opened_below hs.2 hd hx hq
        rw [hnode, ← insideOf_plain h, ← insideOf_of_opens hq]
        exact upward_visits p.follows depth q.1 hc' hsound hle
      have ht : ∀ x ∈ cs, ∀ q ∈ x.opens ((h, .plain c) :: above),
          Tends (upwardWithin p.change depth) q.1 q.2 := by
        intro x hx q hq
        obtain ⟨h', c', n', cs', hnode, hc', hsound, hle⟩ := Outline.opened_below hs.2 hd hx hq
        rw [hnode]
        exact ih q.1 hc' hsound hle
      obtain ⟨f₁, ys, he₁, hpatch₁, -⟩ := visitEach_patches hp.children hv
      have hf₁ := visitEach_tends hp.children hf hv ht he₁
      have hnode := hpatch₁.node ho (by simpa using hp.nodup)
      have hh₁ := ((Outline.holds_node ..).mp (hnode.holds _ (List.mem_singleton_self _))).1
      obtain ⟨f₂, he₂, hf₂⟩ := change_wellFormed p hf₁ hh₁ hc
      have he₂ : p.change f₁ h (cs.map Outline.handle) = .ok f₂ := hpatch₁.handles ▸ he₂
      simp only [upwardWithin, Outline.handle_node, children_of_look hh, he₁, bind, Except.bind,
        he₂] at he
      cases he
      exact hf₂

theorem coalesce_tends (depth : Nat) (above : List (Handle × Kind)) (hc : c.isContainer = true)
    (hs : (Outline.node h c n cs).sound = true)
    (hd : (Outline.node h c n cs).handles.length ≤ depth) :
    Tends (downwardWithin coalesceIn depth) above (.node h c n cs) := by
  induction depth generalizing above h c n cs with
  | zero => simp at hd
  | succ depth ih =>
      intro f parent hp hf f' he
      rw [Outline.sound_node] at hs
      have ho := hp.holds _ (List.mem_singleton_self _)
      have hh := ((Outline.holds_node ..).mp ho).1
      obtain ⟨f₁, he₁, hpatch₁⟩ := coalesceIn_patches ho (by simpa using hp.nodup) hs.2
      obtain ⟨f₁', he₁', hf₁⟩ := coalesceIn_wellFormed hf hh hc
      cases he₁.symm.trans he₁'
      have hp₁ := hp.patched hpatch₁
      have hh₁ := ((Outline.holds_node ..).mp (hp₁.holds _ (List.mem_singleton_self _))).1
      have hd₁ : (Outline.node h c n (Outline.runs cs)).handles.length ≤ depth + 1 :=
        Nat.le_trans (Outline.length_node_runs hs.2) hd
      have hv : ∀ x ∈ Outline.runs cs, ∀ q ∈ x.opens ((h, .plain c) :: above),
          Visits (downwardWithin coalesceIn depth) q.1 (fun x y => y = x.coalescedWithin depth) q.2 := by
        intro x hx q hq
        obtain ⟨h', c', n', cs', hnode, -, hsound, hle⟩ :=
          Outline.opened_below (Outline.sound_runs hs.2) hd₁ hx hq
        rw [hnode]
        exact coalesce_visits depth q.1 hsound hle
      have ht : ∀ x ∈ Outline.runs cs, ∀ q ∈ x.opens ((h, .plain c) :: above),
          Tends (downwardWithin coalesceIn depth) q.1 q.2 := by
        intro x hx q hq
        obtain ⟨h', c', n', cs', hnode, hc', hsound, hle⟩ :=
          Outline.opened_below (Outline.sound_runs hs.2) hd₁ hx hq
        rw [hnode]
        exact ih q.1 hc' hsound hle
      simp only [downwardWithin, Outline.handle_node, children_of_look hh, he₁, bind, Except.bind,
        children_of_look hh₁] at he
      exact visitEach_tends hp₁.children hf₁ hv ht he

theorem Shows.tends (hf : f.Shows o) (hw : f.WellFormed)
    (hv : ∀ h n cs, (Outline.node h .tree n cs).sound = true →
      (Outline.node h .tree n cs).handles.length ≤ f.visitDepth → Tends visit [] (.node h .tree n cs))
    (he : visit f Forest.root = .ok f') : f'.WellFormed := by
  obtain ⟨holds, nodup, sound, hroot, tree⟩ := hf
  cases o with
  | conflict => cases tree
  | node h c n cs =>
      cases tree
      have hdepth := holds.length_le_visitDepth nodup
      exact hv h n cs sound hdepth (Place.whole holds nodup) hw f' (hroot ▸ he)

theorem WellFormed.run (hf : f.WellFormed) (p : Pass) : ∃ f', p.run f = .ok f' ∧ f'.WellFormed := by
  obtain ⟨o, ho⟩ := hf.exists_shows
  obtain ⟨f', -, he, -⟩ := ho.run p
  refine ⟨f', he, ho.tends hf ?_ he⟩
  intro h n cs hs hd
  exact upward_tends p f.visitDepth [] rfl hs hd

theorem WellFormed.runPasses (hf : f.WellFormed) (ps : List Pass) :
    ∃ f', f.runPasses ps = .ok f' ∧ f'.WellFormed :=
  foldlM_invariant (fun _ hf p _ => hf.run p) hf

theorem WellFormed.coalesce (hf : f.WellFormed) :
    ∃ f', f.coalesce = .ok f' ∧ f'.WellFormed ∧ f.size ≤ f'.size := by
  obtain ⟨o, ho⟩ := hf.exists_shows
  obtain ⟨f', he, hpatch⟩ := coalesce_patches ho.holds ho.nodup ho.sound ho.root ho.tree
  refine ⟨f', he, ho.tends hf ?_ he, hpatch.size⟩
  intro h n cs hs hd
  exact coalesce_tends f.visitDepth [] rfl hs hd

end Forest

end Reconcile
