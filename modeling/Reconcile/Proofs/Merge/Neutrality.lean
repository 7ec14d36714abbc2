import Mathlib.Data.List.Chain
import Reconcile.Proofs.Forest.Tending
import Reconcile.Proofs.Merge.Coalesced
import Reconcile.Proofs.Merge.Leading

namespace Reconcile

namespace Outline

/-- Nowhere are two conflicts of declarations next to each other. -/
def Spaced (o : Outline) : Prop :=
  ∀ x ∈ o.subtrees, x.children.IsChain fun a b => ¬ (a.isDispute = true ∧ b.isDispute = true)

variable {o x y z : Outline} {xs ys cs : List Outline} {h : Handle} {c : Content} {n : Notes}
  {side : Side} {g : Outline → Outline}

theorem unite?_eq_none_iff : x.unite? y = none ↔ ¬ (x.isDispute = true ∧ y.isDispute = true) := by
  constructor
  · rintro hnone ⟨hx, hy⟩
    obtain ⟨z, hz⟩ := exists_unite hx hy
    cases hnone.symm.trans hz
  · intro hnot
    rw [not_and_or, Bool.not_eq_true, Bool.not_eq_true] at hnot
    exact unite?_eq_none hnot

@[simp] theorem spaced_node : (node h c n cs).Spaced ↔
    (cs.IsChain fun a b => ¬ (a.isDispute = true ∧ b.isDispute = true)) ∧ ∀ x ∈ cs, x.Spaced := by
  simp only [Spaced, subtrees_node, List.forall_mem_cons, List.mem_flatMap, children]
  refine and_congr_right fun _ => ⟨fun hs x hx y hy => hs y ⟨x, hx, hy⟩, ?_⟩
  rintro hs y ⟨x, hx, hy⟩
  exact hs x hx y hy

@[simp] theorem spaced_conflict {form : ConflictForm} {labels : Labels} {l r : Outline} :
    (conflict h form labels n l r).Spaced ↔ l.Spaced ∧ r.Spaced := by
  simp only [Spaced, subtrees_conflict, List.forall_mem_cons, List.forall_mem_append, children,
    List.IsChain.nil, true_and]

theorem spaced_of_conflictFree (ho : o.conflictFree = true) : o.Spaced := by
  induction o with
  | node h c n cs ih =>
      rw [conflictFree_node] at ho
      refine spaced_node.mpr ⟨?_, fun x hx => ih x hx (ho x hx)⟩
      refine List.Pairwise.isChain (List.pairwise_of_forall_mem_list fun a ha b _ hab => ?_)
      cases a with
      | node => cases hab.1
      | conflict => cases ho _ ha
  | conflict => cases ho

theorem exists_foldRuns_cons (x : Outline) (xs : List Outline) :
    ∃ z zs, foldRuns x xs = z :: zs ∧ z.isDispute = x.isDispute := by
  induction xs generalizing x with
  | nil => exact ⟨x, [], rfl, rfl⟩
  | cons y ys ih =>
      rw [foldRuns]
      split
      · next z hz =>
          obtain ⟨w, ws, hw, hd⟩ := ih z
          refine ⟨w, ws, hw, hd.trans ?_⟩
          unfold unite? at hz
          split at hz
          · cases hz
            rfl
          · cases hz
      · exact ⟨x, _, rfl, rfl⟩

theorem isChain_runs (xs : List Outline) :
    (runs xs).IsChain fun a b => ¬ (a.isDispute = true ∧ b.isDispute = true) := by
  cases xs with
  | nil => exact .nil
  | cons x xs =>
      rw [runs]
      induction xs generalizing x with
      | nil => exact .singleton x
      | cons y ys ih =>
          rw [foldRuns]
          split
          · exact ih _
          · next hnone =>
              have htail := ih y
              obtain ⟨z, zs, hz, hd⟩ := exists_foldRuns_cons y ys
              rw [hz] at htail ⊢
              refine .cons_cons ?_ htail
              rw [hd]
              exact unite?_eq_none_iff.mp hnone

@[simp] theorem isDispute_coalescedWithin (depth : Nat) (o : Outline) :
    (o.coalescedWithin depth).isDispute = o.isDispute := by
  cases depth with
  | zero => rfl
  | succ => cases o <;> rfl

@[simp] theorem isDispute_descend (depth : Nat) (o : Outline) :
    (o.descend (coalescedWithin depth)).isDispute = o.isDispute := by
  cases o with
  | conflict h form => cases form <;> rfl
  | node h c n cs =>
      rw [descend]
      split
      · exact isDispute_coalescedWithin depth _
      · rfl

theorem spaced_descend (hs : x.sound = true)
    (hg : ∀ y, y.sound = true → y.content?.isSome = true → y.handles.length ≤ x.handles.length →
      (g y).Spaced) : (x.descend g).Spaced := by
  cases x with
  | node h c n cs =>
      rw [descend]
      split
      · exact hg _ hs rfl (Nat.le_refl _)
      · next hc =>
          rcases ((sound_node ..).mp hs).1 with hroom | rfl
          · exact absurd hroom hc
          · exact spaced_node.mpr ⟨.nil, by simp⟩
  | conflict h form labels n l r =>
      obtain ⟨⟨hl, hr⟩, hsl, hsr⟩ := (sound_conflict ..).mp hs
      obtain ⟨_, _, _, _, rfl, -⟩ := container_of_suits hl
      obtain ⟨_, _, _, _, rfl, -⟩ := container_of_suits hr
      rw [handles_conflict, List.length_cons, List.length_append] at hg
      exact spaced_conflict.mpr ⟨hg _ hsl rfl (by omega), hg _ hsr rfl (by omega)⟩

theorem spaced_coalescedWithin {depth : Nat} (hs : o.sound = true) (hc : o.content?.isSome = true)
    (hd : o.handles.length ≤ depth) : (o.coalescedWithin depth).Spaced := by
  induction depth generalizing o with
  | zero => simp [handles] at hd
  | succ depth ih =>
      cases o with
      | conflict => cases hc
      | node h c n cs =>
          have hcs := ((sound_node ..).mp hs).2
          rw [handles_node, List.length_cons, Nat.succ_le_succ_iff] at hd
          rw [coalescedWithin, spaced_node, List.forall_mem_map, List.isChain_map]
          constructor
          · simpa only [isDispute_descend] using isChain_runs cs
          · intro x hx
            refine spaced_descend (sound_runs hcs x hx) fun y hy hcy hle => ih hy hcy ?_
            exact Nat.le_trans hle (Nat.le_trans (length_of_mem_runs hcs hx) hd)

theorem Unites.resolvedTo (h : Unites x y z) (side : Side) :
    z.resolvedTo side = x.resolvedTo side ++ y.resolvedTo side := by
  cases h
  cases side <;> simp [Outline.resolvedTo, Side.pick, Outline.children]

theorem withBody_coalescedWithin (depth : Nat) (o : Outline) (hc : o.content?.isSome = true)
    (body : List Outline) : (o.coalescedWithin depth).withBody body = o.withBody body := by
  cases depth with
  | zero => rfl
  | succ => cases o <;> rfl

theorem resolvedTo_coalescedWithin (depth : Nat) (side : Side) (hs : o.sound = true) :
    (o.coalescedWithin depth).resolvedTo side = o.resolvedTo side := by
  induction depth generalizing o with
  | zero => rfl
  | succ depth ih =>
      cases o with
      | conflict => rfl
      | node h c n cs =>
          have hcs := ((sound_node ..).mp hs).2
          rw [coalescedWithin, resolvedTo_node, resolvedTo_node, List.flatMap_map,
            ← flatMap_runs (fun hu => hu.resolvedTo side) hcs]
          refine congrArg (fun cs => [node h c n cs]) (List.flatMap_congr fun x hx => ?_)
          have hsx := sound_runs hcs x hx
          cases x with
          | node k d m ds =>
              rw [descend]
              split
              · exact ih hsx
              · rfl
          | conflict k form labels m l r =>
              obtain ⟨⟨hl, hr⟩, hsl, hsr⟩ := (sound_conflict ..).mp hsx
              obtain ⟨_, _, _, _, rfl, -⟩ := container_of_suits hl
              obtain ⟨_, _, _, _, rfl, -⟩ := container_of_suits hr
              rw [descend]
              cases form with
              | declarations =>
                  rw [resolvedTo, resolvedTo, ih hsl, ih hsr]
              | headers =>
                  rw [resolvedTo, resolvedTo, ih hsl]
                  cases side with
                  | left => rw [Side.pick, Side.pick, withBody_coalescedWithin _ _ rfl]
                  | right => rw [Side.pick, Side.pick, withBody_coalescedWithin _ _ rfl]

end Outline

namespace Forest

open Outline (Spaced)

variable {f : Forest} {o x : Outline} {parent : Option Handle} {h : Handle} {c : Content} {n : Notes}
  {cs : List Outline}

theorem coalesceIn_of_spaced (ho : (Outline.node h c n cs).Holds f.look parent)
    (hs : (Outline.node h c n cs).Spaced) : coalesceIn f h (cs.map Outline.handle) = .ok f := by
  have hchain := (Outline.spaced_node.mp hs).1
  have hcs := ((Outline.holds_node ..).mp ho).2
  have hfold (x : Outline) (hx : (x :: cs).IsChain
      fun a b => ¬ (a.isDispute = true ∧ b.isDispute = true)) :
      ∃ run, (cs.map Outline.handle).foldlM extendRun (f, runOf x) = .ok (f, run) := by
    clear hs ho hchain
    induction cs generalizing x with
    | nil => exact ⟨_, rfl⟩
    | cons y ys ih =>
        obtain ⟨hxy, hys⟩ := List.isChain_cons_cons.mp hx
        obtain ⟨run, hrun⟩ := ih (fun z hz => hcs z (List.mem_cons_of_mem _ hz)) y hys
        refine ⟨run, ?_⟩
        rw [List.map_cons, List.foldlM_cons, extendRun_of_none (hcs y List.mem_cons_self)
          (Outline.unite?_eq_none_iff.mpr hxy)]
        exact hrun
  -- The run starts as it would after a node that is no conflict.
  obtain ⟨run, hrun⟩ := hfold (.node h c n []) (by
    cases cs with
    | nil => exact .singleton _
    | cons y ys => exact .cons_cons (by simp [Outline.isDispute]) hchain)
  change (cs.map Outline.handle).foldlM extendRun (f, none) = _ at hrun
  simp only [coalesceIn, hrun, bind, Except.bind]
  rfl

theorem coalesceFrom_of_spaced (depth : Nat) (ho : (Outline.node h c n cs).Holds f.look parent)
    (hs : (Outline.node h c n cs).sound = true) (hspaced : (Outline.node h c n cs).Spaced)
    (hd : (Outline.node h c n cs).handles.length ≤ depth) :
    downwardWithin coalesceIn depth f h = .ok f := by
  induction depth generalizing h c n cs parent with
  | zero => simp [Outline.handles] at hd
  | succ depth ih =>
      rw [Outline.handles_node, List.length_cons, Nat.succ_le_succ_iff] at hd
      obtain ⟨hh, hcs⟩ := (Outline.holds_node ..).mp ho
      have hscs := ((Outline.sound_node ..).mp hs).2
      have hpcs := (Outline.spaced_node.mp hspaced).2
      have heach : ∀ x ∈ cs, (do
          (← f.containersAt x.handle).foldlM (downwardWithin coalesceIn depth) f) = .ok f := by
        intro x hx
        have hhold := hcs x hx
        have hsx := hscs x hx
        have hpx := hpcs x hx
        have hle := Nat.le_trans (Outline.length_handles_le hx) hd
        cases x with
        | node k d m ds =>
            have hk := ((Outline.holds_node ..).mp hhold).1
            have hvisit := ih hhold hsx hpx hle
            simp only [containersAt, Outline.handle_node, kind_of_look hk, pure, Except.pure, bind,
              Except.bind]
            cases d.isContainer with
            | false => rfl
            | true => simp only [if_true, List.foldlM_cons, List.foldlM_nil, hvisit, bind,
                Except.bind, pure, Except.pure]
        | conflict k form labels m l r =>
            obtain ⟨hk, hhl, hhr⟩ := (Outline.holds_conflict ..).mp hhold
            obtain ⟨⟨hl, hr⟩, hsl, hsr⟩ := (Outline.sound_conflict ..).mp hsx
            obtain ⟨hpl, hpr⟩ := Outline.spaced_conflict.mp hpx
            obtain ⟨_, _, _, _, rfl, -⟩ := Outline.container_of_suits hl
            obtain ⟨_, _, _, _, rfl, -⟩ := Outline.container_of_suits hr
            rw [Outline.handles_conflict, List.length_cons, List.length_append] at hle
            have hvl := ih hhl hsl hpl (by omega)
            have hvr := ih hhr hsr hpr (by omega)
            simp only [containersAt, Outline.handle_conflict, kind_of_look hk, pure, Except.pure,
              List.foldlM_cons, List.foldlM_nil, Outline.handle_node, hvl, hvr, bind, Except.bind]
      obtain ⟨_, hvisit, rfl⟩ : ∃ f',
          visitEach (downwardWithin coalesceIn depth) f (cs.map Outline.handle) = .ok f' ∧ f' = f := by
        refine foldlM_invariant ?_ rfl
        rintro _ rfl _ hmem
        obtain ⟨x, hx, rfl⟩ := List.mem_map.mp hmem
        exact ⟨_, heach x hx, rfl⟩
      simp only [downwardWithin, children_of_look hh, coalesceIn_of_spaced ho hspaced, bind,
        Except.bind]
      exact hvisit

theorem Shows.coalesce_of_spaced (hf : f.Shows o) (hs : o.Spaced) : f.coalesce = .ok f := by
  obtain ⟨holds, nodup, sound, hroot, tree⟩ := hf
  cases o with
  | conflict => cases tree
  | node h c n cs =>
      rw [coalesce, downward, ← hroot]
      exact coalesceFrom_of_spaced _ holds sound hs (holds.length_le_visitDepth nodup)

/-- Coalescing leaves no two conflicts of declarations next to each other, and nothing that a second
coalescing would change. The resolutions to both sides are the same before and after. -/
theorem coalesce_neutral (hf : f.WellFormed) : ∃ f' o o', f.coalesce = .ok f' ∧
    f.outline root = .ok o ∧ f'.outline root = .ok o' ∧ o'.Spaced ∧ f'.coalesce = .ok f' ∧
    ∀ side, ∃ x, o.resolvedTo side = [x] ∧ o'.resolvedTo side = [x] := by
  obtain ⟨o, ho⟩ := hf.exists_shows
  obtain ⟨f', he, hpatch⟩ := coalesce_patches ho.holds ho.nodup ho.sound ho.root ho.tree
  have hspaced := Outline.spaced_coalescedWithin ho.sound (by rw [ho.tree]; rfl)
    (ho.holds.length_le_visitDepth ho.nodup)
  have hshows : f'.Shows (o.coalescedWithin f.visitDepth) := by
    obtain ⟨_, he', hf', -⟩ := hf.coalesce
    cases he.symm.trans he'
    obtain ⟨o', ho'⟩ := hf'.exists_shows
    obtain ⟨hholds, hnodup, hhandle⟩ := hpatch.single
    have houtline := outline_of_holds hholds hnodup
    rw [hhandle, ho.root, ho'.outline] at houtline
    cases houtline
    exact ho'
  refine ⟨f', o, _, he, ho.outline, hshows.outline, hspaced, hshows.coalesce_of_spaced hspaced,
    fun side => ?_⟩
  rw [Outline.resolvedTo_coalescedWithin _ side ho.sound]
  cases o with
  | conflict => cases ho.tree
  | node h c n cs => exact ⟨_, Outline.resolvedTo_node h c n cs, Outline.resolvedTo_node h c n cs⟩

def ofNestedDisputes : Forest :=
  let dispute (parent l r : Handle) : Node :=
    { kind := .conflict .declarations ⟨"left", "right"⟩ l r, parent := some parent }
  let side (parent : Handle) (children : List Handle) : Node :=
    { kind := .plain .tree, parent := some parent, children }
  let constant (parent : Handle) (name : String) : Node :=
    { kind := .plain (.leaf (.constant name "1")), parent := some parent }
  ⟨#[{ kind := .plain .tree, children := [1, 8] },
    dispute root 2 3, side 1 [4], side 1 [], dispute 2 5 6, side 4 [7], side 4 [], constant 5 "A",
    dispute root 9 10, side 8 [11], side 8 [], dispute 9 12 13, side 11 [14], side 11 [],
    constant 12 "B"]⟩

theorem coalesce_neutral_nested : ofNestedDisputes.WellFormed ∧ ∃ f' o o',
    ofNestedDisputes.coalesce = .ok f' ∧ ofNestedDisputes.outline root = .ok o ∧
    f'.outline root = .ok o' ∧ o'.Spaced ∧ f'.coalesce = .ok f' ∧
    ∀ side, ∃ x, o.resolvedTo side = [x] ∧ o'.resolvedTo side = [x] :=
  ⟨by decide, coalesce_neutral (by decide)⟩

end Forest

end Reconcile
