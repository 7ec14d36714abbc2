import Reconcile.Merge.Fold
import Reconcile.Proofs.Forest.Choosing
import Reconcile.Proofs.Forest.Move
import Reconcile.Proofs.Forest.Visiting

namespace Reconcile

namespace Outline

def withMore : Outline → List Outline → Outline
  | node h c n cs, more => node h c n (cs ++ more)
  | o, _ => o

/-- The conflict that takes in the one after it, if both are conflicts of declarations. -/
def unite? : Outline → Outline → Option Outline
  | conflict h .declarations labels n l r, conflict _ .declarations _ _ l' r' =>
      some (conflict h .declarations labels n (l.withMore l'.children) (r.withMore r'.children))
  | _, _ => none

def foldRuns (x : Outline) : List Outline → List Outline
  | [] => [x]
  | y :: ys =>
      match x.unite? y with
      | some z => foldRuns z ys
      | none => x :: foldRuns y ys

def runs : List Outline → List Outline
  | [] => []
  | x :: xs => foldRuns x xs

def facing (side : Side) (h : Handle) (labels : Labels) (n : Notes) (o o' : Outline) : Outline :=
  conflict h .declarations labels n (side.pick o o') (side.pick o' o)

def descend (g : Outline → Outline) : Outline → Outline
  | node h c n cs => if c.isContainer then g (node h c n cs) else node h c n cs
  | conflict h form labels n l r => conflict h form labels n (g l) (g r)

/-- The runs of a container are folded before those of what it opens then. -/
def coalescedWithin : Nat → Outline → Outline
  | depth + 1, node h c n cs => node h c n ((runs cs).map (descend (coalescedWithin depth)))
  | _, o => o

/-- How two conflicts of declarations become one. -/
inductive Unites : Outline → Outline → Outline → Prop
  | mk (k l r k' l' r' : Handle) (labels labels' : Labels) (nk nl nr nk' nl' nr' : Notes)
      (ls rs ls' rs' : List Outline) :
      Unites (conflict k .declarations labels nk (node l .tree nl ls) (node r .tree nr rs))
        (conflict k' .declarations labels' nk' (node l' .tree nl' ls') (node r' .tree nr' rs'))
        (conflict k .declarations labels nk (node l .tree nl (ls ++ ls')) (node r .tree nr (rs ++ rs')))

variable {x y z : Outline}

theorem unites_of_sound (hx : x.sound = true) (hy : y.sound = true) (h : x.unite? y = some z) :
    Unites x y z := by
  unfold unite? at h
  split at h
  · next k labels nk l r k' labels' nk' l' r' =>
      rw [sound_conflict] at hx hy
      obtain ⟨l, nl, ls, rfl⟩ := ConflictForm.exists_tree hx.1.1
      obtain ⟨r, nr, rs, rfl⟩ := ConflictForm.exists_tree hx.1.2
      obtain ⟨l', nl', ls', rfl⟩ := ConflictForm.exists_tree hy.1.1
      obtain ⟨r', nr', rs', rfl⟩ := ConflictForm.exists_tree hy.1.2
      cases h
      exact .mk ..
  · cases h

theorem Unites.sound (h : Unites x y z) (hx : x.sound = true) (hy : y.sound = true) :
    z.sound = true := by
  cases h
  simp only [sound_conflict, sound_node, List.mem_append] at hx hy ⊢
  refine ⟨⟨rfl, rfl⟩, ⟨Or.inl rfl, ?_⟩, Or.inl rfl, ?_⟩
  · rintro o (ho | ho)
    · exact hx.2.1.2 o ho
    · exact hy.2.1.2 o ho
  · rintro o (ho | ho)
    · exact hx.2.2.2 o ho
    · exact hy.2.2.2 o ho

theorem handles_facings (side : Side) (k p l q : Handle) (labels labels' : Labels) (nk np nl nq : Notes)
    (cs ds : List Outline) (o o' : Outline) :
    ([facing side k labels nk (node p .tree np cs) o,
      facing side l labels' nl (node q .tree nq ds) o'].flatMap handles).Perm
    (p :: q :: (ds.flatMap handles ++ k :: l :: (cs.flatMap handles ++ (o.handles ++ o'.handles)))) := by
  rw [List.perm_iff_count]
  intro a
  cases side <;>
    simp only [facing, Side.pick, List.flatMap_cons, List.flatMap_nil, List.append_nil, handles_conflict,
      handles_node, List.count_append, List.count_cons] <;> omega

/-- What two neighbours can become one without losing is kept by the folding of all runs. -/
theorem runs_keep {M : List Outline → Prop} {xs : List Outline} (hs : ∀ x ∈ xs, x.sound = true)
    (h : M xs) (hM : ∀ {before after x y z}, Unites x y z → M (before ++ x :: y :: after) →
      M (before ++ z :: after)) : M (runs xs) ∧ ∀ x ∈ runs xs, x.sound = true := by
  have keep : ∀ {before x xs}, (∀ y ∈ before ++ x :: xs, y.sound = true) → M (before ++ x :: xs) →
      M (before ++ foldRuns x xs) ∧ ∀ y ∈ before ++ foldRuns x xs, y.sound = true := by
    intro before x xs
    induction xs generalizing before x with
    | nil => exact fun hs h => ⟨h, hs⟩
    | cons y ys ih =>
        intro hs h
        rw [foldRuns]
        split
        · next z hz =>
            have hx := hs x (by simp)
            have hy := hs y (by simp)
            have hu := unites_of_sound hx hy hz
            refine ih ?_ (hM hu h)
            intro w hw
            rcases List.mem_append.mp hw with hw | hw
            · exact hs w (by simp [hw])
            · rcases List.mem_cons.mp hw with rfl | hw
              · exact hu.sound hx hy
              · exact hs w (by simp [hw])
        · rw [List.append_cons] at hs h
          rw [List.append_cons]
          exact ih hs h
  cases xs with
  | nil => exact ⟨h, hs⟩
  | cons x xs => exact @keep [] x xs hs h

theorem sound_runs {xs : List Outline} (hs : ∀ x ∈ xs, x.sound = true) :
    ∀ z ∈ runs xs, z.sound = true :=
  (runs_keep hs trivial (M := fun _ => True) fun _ _ => trivial).2

theorem length_runs {xs : List Outline} (hs : ∀ x ∈ xs, x.sound = true) :
    ((runs xs).flatMap handles).length ≤ (xs.flatMap handles).length := by
  refine (runs_keep hs (Nat.le_refl _) (M := fun zs =>
    (zs.flatMap handles).length ≤ (xs.flatMap handles).length) ?_).1
  intro before after x y z hu hle
  refine Nat.le_trans ?_ hle
  cases hu
  simp only [List.flatMap_append, List.flatMap_cons, handles_conflict, handles_node,
    List.length_append, List.length_cons]
  omega

theorem length_node_runs {h : Handle} {c : Content} {n : Notes} {cs : List Outline}
    (hs : ∀ x ∈ cs, x.sound = true) :
    (node h c n (runs cs)).handles.length ≤ (node h c n cs).handles.length := by
  rw [handles_node, handles_node]
  exact Nat.succ_le_succ (length_runs hs)

end Outline

namespace Forest

variable {f : Forest} {look : Handle → Option Node} {parent : Option Handle} {h : Handle} {c : Content}
  {n : Notes} {before after : List Outline}

theorem holds_facing {side : Side} {k : Handle} {labels : Labels} {m : Notes} {o o' : Outline} :
    (Outline.facing side k labels m o o').Holds look parent ↔
      look k = some ⟨.conflict .declarations labels (side.pick o.handle o'.handle)
        (side.pick o'.handle o.handle), m, parent, []⟩ ∧
        o.Holds look (some k) ∧ o'.Holds look (some k) := by
  cases side with
  | left => exact Outline.holds_conflict ..
  | right => exact (Outline.holds_conflict ..).trans (and_congr_right fun _ => and_comm)

theorem moveChildren_patches (side : Side) {k p l q : Handle} {labels labels' : Labels}
    {nk np nl nq : Notes} {cs ds : List Outline} {o o' : Outline}
    (hx : (Outline.facing side k labels nk (.node p .tree np cs) o).Holds f.look parent)
    (hy : (Outline.facing side l labels' nl (.node q .tree nq ds) o').Holds f.look parent)
    (hd : ([Outline.facing side k labels nk (.node p .tree np cs) o,
      Outline.facing side l labels' nl (.node q .tree nq ds) o'].flatMap Outline.handles).Nodup) :
    ∃ f', f.moveChildren q p = .ok f' ∧ Patches f f' parent
      [.facing side k labels nk (.node p .tree np cs) o,
        .facing side l labels' nl (.node q .tree nq ds) o']
      [.facing side k labels nk (.node p .tree np (cs ++ ds)) o,
        .facing side l labels' nl (.node q .tree nq []) o'] := by
  have hperm := Outline.handles_facings side k p l q labels labels' nk np nl nq
  have hd' := hd
  rw [(hperm cs ds o o').nodup_iff, List.nodup_cons, List.nodup_cons, List.mem_cons, List.mem_append,
    List.mem_append, not_or, not_or, not_or, List.nodup_append'] at hd'
  obtain ⟨⟨hpq, hpds, hpr⟩, ⟨hqds, hqr⟩, hds, -, hdis⟩ := hd'
  obtain ⟨hk, hpn, ho⟩ := holds_facing.mp hx
  obtain ⟨hl, hqn, ho'⟩ := holds_facing.mp hy
  rw [Outline.holds_node] at hpn hqn
  have hready : Moves.Ready f (some q) (some p) ds := by
    refine ⟨?_, ?_, hds⟩
    · rintro _ ⟨⟩
      exact ⟨hpds, _, hpn.1, rfl⟩
    · rintro _ ⟨⟩
      exact ⟨hqds, _, hqn.1⟩
  obtain ⟨f', he, hmv⟩ := attachAll_moves hready hqn.2 (by simpa using Ne.symm hpq)
  have hold : ∀ y ∈ k :: l :: (cs.flatMap Outline.handles ++ (o.handles ++ o'.handles)),
      f'.look y = f.look y := by
    intro y hy
    refine hmv.look_eq (fun hm => hdis hm hy) ?_ ?_
    · rintro ⟨⟩
      exact hpr hy
    · rintro ⟨⟩
      exact hqr hy
  refine ⟨f', ?_, .of_subperm ?_ rfl hmv.size ?_ hd ?_⟩
  · simp only [moveChildren, children_of_look hqn.1, bind, Except.bind]
    exact he
  · simp only [List.mem_cons, List.not_mem_nil, or_false, forall_eq_or_imp, forall_eq, holds_facing,
      Outline.holds_node, List.mem_append]
    refine ⟨⟨(hold k (by simp)).trans hk, ⟨?_, ?_⟩, ho.congr fun y hy => hold y (by simp [hy])⟩,
      (hold l (by simp)).trans hl, ⟨?_, fun _ => False.elim⟩,
      ho'.congr fun y hy => hold y (by simp [hy])⟩
    · rw [hmv.look_target hpds hpn.1, List.map_append]
    · rintro x (hx | hx)
      · exact (hpn.2 x hx).congr fun y hy => hold y (by simp [Outline.handles_subset hx hy])
      · exact hmv.holds x hx
    · rw [hmv.look_source hqds (by simpa using hpq) hqn.1]
      simp
  · intro y hy
    rw [(hperm cs ds o o').mem_iff, List.mem_cons, List.mem_cons, List.mem_append, not_or, not_or, not_or]
      at hy
    exact hmv.look_eq hy.2.2.1 (by simpa using Ne.symm hy.1) (by simpa using Ne.symm hy.2.1)
  · refine ((hperm (cs ++ ds) [] o o').trans (.trans ?_ (hperm cs ds o o').symm)).subperm
    rw [List.perm_iff_count]
    intro a
    simp only [List.flatMap_append, List.flatMap_nil, List.nil_append, List.count_append,
      List.count_cons]
    omega

def runOf : Outline → Run
  | .conflict _ .declarations _ _ l r => some (l.handle, r.handle)
  | _ => none

theorem extendRun_of_unites {x y z : Outline} (hu : Outline.Unites x y z)
    (ho : (Outline.node h c n (before ++ x :: y :: after)).Holds f.look parent)
    (hd : (Outline.node h c n (before ++ x :: y :: after)).handles.Nodup) :
    ∃ f', extendRun (f, runOf x) y.handle = .ok (f', runOf z) ∧ Patches f f' parent
      [.node h c n (before ++ x :: y :: after)] [.node h c n (before ++ z :: after)] := by
  have hcs := ((Outline.holds_node ..).mp ho).2
  have hd' := (List.nodup_cons.mp (Outline.handles_node .. ▸ hd)).2
  have hpair : ([x, y].flatMap Outline.handles).Nodup := by
    have hsub : [x, y].Sublist (before ++ x :: y :: after) :=
      (List.sublist_append_left [x, y] after).trans (List.sublist_append_right before _)
    exact (hsub.flatMap _).nodup hd'
  have hx := hcs x (by simp)
  have hy := hcs y (by simp)
  cases hu with
  | mk k l r k' l' r' labels labels' nk nl nr nk' nl' nr' ls rs ls' rs' =>
      obtain ⟨f₁, he₁, hp₁⟩ := moveChildren_patches .left hx hy hpair
      obtain ⟨f₂, he₂, hp₂⟩ := moveChildren_patches .right (hp₁.holds _ List.mem_cons_self)
        (hp₁.holds _ (List.mem_cons_of_mem _ List.mem_cons_self)) hp₁.nodup
      have hp := ((hp₁.trans hp₂).amid hcs hd').node ho hd
      obtain ⟨hholds, hnodup, -⟩ := hp.single
      rw [List.cons_append, List.singleton_append, List.append_cons] at hholds hnodup
      obtain ⟨f₃, he₃, -, hp₃⟩ := detach_patches hholds hnodup
      rw [← List.append_cons, ← List.append_cons] at hp₃
      refine ⟨f₃, ?_, hp.trans hp₃⟩
      have hk' := ((Outline.holds_conflict ..).mp hy).1
      simp only [Outline.facing, Outline.handle_conflict] at he₃
      simp only [extendRun, Outline.handle_conflict, kind_of_look hk', runOf, Outline.handle_node, bind,
        Except.bind, he₁, he₂, he₃]
      rfl

theorem extendRun_of_none {p : Option Handle} {x y : Outline} (ho : y.Holds f.look p)
    (hz : x.unite? y = none) : extendRun (f, runOf x) y.handle = .ok (f, runOf y) := by
  cases y with
  | node k d m cs =>
      rw [Outline.holds_node] at ho
      simp only [extendRun, Outline.handle_node, kind_of_look ho.1, bind, Except.bind]
      rfl
  | conflict k form labels m l r =>
      rw [Outline.holds_conflict] at ho
      simp only [extendRun, Outline.handle_conflict, kind_of_look ho.1, bind, Except.bind]
      cases form with
      | headers => rfl
      | declarations =>
          have hx : runOf x = none := by
            cases x with
            | node => rfl
            | conflict _ form =>
                cases form with
                | headers => rfl
                | declarations => cases hz
          rw [hx]
          rfl

theorem foldRuns_patches {x : Outline} {xs : List Outline}
    (ho : (Outline.node h c n (before ++ x :: xs)).Holds f.look parent)
    (hd : (Outline.node h c n (before ++ x :: xs)).handles.Nodup)
    (hx : x.sound = true) (hxs : ∀ y ∈ xs, y.sound = true) :
    ∃ f' run, (xs.map Outline.handle).foldlM extendRun (f, runOf x) = .ok (f', run) ∧
      Patches f f' parent [.node h c n (before ++ x :: xs)]
        [.node h c n (before ++ Outline.foldRuns x xs)] := by
  induction xs generalizing f before x with
  | nil =>
      refine ⟨f, runOf x, rfl, .refl ?_ ?_⟩
      · simpa only [List.mem_singleton, forall_eq] using ho
      · simpa only [List.flatMap_singleton] using hd
  | cons y ys ih =>
      have hy := hxs y (by simp)
      have hys : ∀ z ∈ ys, z.sound = true := fun z hz => hxs z (by simp [hz])
      rw [Outline.foldRuns, List.map_cons]
      split
      · next z hz =>
          have hu := Outline.unites_of_sound hx hy hz
          have hzs := hu.sound hx hy
          obtain ⟨f₁, he₁, hpatch⟩ := extendRun_of_unites hu ho hd
          obtain ⟨f', run, he, hpatch'⟩ := ih (hpatch.holds _ (List.mem_singleton_self _))
            (by simpa only [List.flatMap_singleton] using hpatch.nodup) hzs hys
          refine ⟨f', run, ?_, hpatch.trans hpatch'⟩
          rw [List.foldlM_cons, he₁]
          exact he
      · next hz =>
          have hhold : y.Holds f.look (some h) := ((Outline.holds_node ..).mp ho).2 y (by simp)
          rw [List.append_cons] at ho hd
          obtain ⟨f', run, he, hpatch⟩ := ih ho hd hy hys
          refine ⟨f', run, ?_, ?_⟩
          · rw [List.foldlM_cons, extendRun_of_none hhold hz]
            exact he
          · rw [← List.append_cons, ← List.append_cons] at hpatch
            exact hpatch

theorem coalesceIn_patches {cs : List Outline} (ho : (Outline.node h c n cs).Holds f.look parent)
    (hd : (Outline.node h c n cs).handles.Nodup) (hcs : ∀ x ∈ cs, x.sound = true) :
    ∃ f', coalesceIn f h (cs.map Outline.handle) = .ok f' ∧
      Patches f f' parent [.node h c n cs] [.node h c n (Outline.runs cs)] := by
  cases cs with
  | nil =>
      refine ⟨f, rfl, .refl ?_ ?_⟩
      · simpa only [List.mem_singleton, forall_eq] using ho
      · simpa only [List.flatMap_singleton] using hd
  | cons x xs =>
      obtain ⟨f', run, he, hpatch⟩ := @foldRuns_patches f parent h c n [] x xs ho hd
        (hcs x (by simp)) fun y hy => hcs y (by simp [hy])
      refine ⟨f', ?_, hpatch⟩
      have hx : x.Holds f.look (some h) := ((Outline.holds_node ..).mp ho).2 x (by simp)
      have hstart : extendRun (f, none) x.handle = .ok (f, runOf x) :=
        @extendRun_of_none f (some h) (.node h c n []) x hx (by cases x <;> rfl)
      rw [coalesceIn, List.map_cons, List.foldlM_cons, hstart]
      simp only [bind, Except.bind, he]
      rfl

theorem eq_map_of_descends {g : Outline → Outline} {xs ys : List Outline}
    (h : List.Forall₂ (Descends fun x y => y = g x) xs ys) : ys = xs.map (Outline.descend g) := by
  induction h with
  | nil => rfl
  | cons hx _ ih =>
      rw [List.map_cons, ih]
      congr 1
      cases hx with
      | leaf => rfl
      | container h c n cs y hc hy => rw [Outline.descend, if_pos hc, hy]
      | conflict h form labels n l r l' r' hl hr => rw [Outline.descend, hl, hr]

theorem coalesce_visits (depth : Nat) (above : List (Handle × Kind)) {cs : List Outline}
    (hs : (Outline.node h c n cs).sound = true)
    (hd : (Outline.node h c n cs).handles.length ≤ depth) :
    Visits (downwardWithin coalesceIn depth) above (fun x y => y = x.coalescedWithin depth)
      (.node h c n cs) := by
  induction depth generalizing above h c n cs with
  | zero => simp at hd
  | succ depth ih =>
      intro f parent hp
      rw [Outline.sound_node] at hs
      have ho := hp.holds _ (List.mem_singleton_self _)
      obtain ⟨f₁, he₁, hpatch₁⟩ := coalesceIn_patches ho (by simpa using hp.nodup) hs.2
      have hp₁ := hp.patched hpatch₁
      have hv : ∀ x ∈ Outline.runs cs, ∀ p ∈ x.opens ((h, .plain c) :: above),
          Visits (downwardWithin coalesceIn depth) p.1 (fun x y => y = x.coalescedWithin depth) p.2 := by
        intro x hx p hop
        obtain ⟨h', c', n', cs', hnode, -, hsound, hle⟩ :=
          Outline.opened_below (Outline.sound_runs hs.2) (Nat.le_trans (Outline.length_node_runs hs.2) hd)
            hx hop
        rw [hnode]
        exact ih p.1 hsound hle
      obtain ⟨f₂, ys, he₂, hpatch₂, hys⟩ := visitEach_patches hp₁.children hv
      refine ⟨f₂, .node h c n ys, ?_, ?_, ?_⟩
      · have hh := ((Outline.holds_node ..).mp ho).1
        have hh₁ := ((Outline.holds_node ..).mp (hp₁.holds _ (List.mem_singleton_self _))).1
        simp only [downwardWithin, Outline.handle_node, children_of_look hh, he₁, bind, Except.bind,
          children_of_look hh₁]
        exact he₂
      · refine hpatch₁.trans (hpatch₂.node (hp₁.holds _ (List.mem_singleton_self _)) ?_)
        simpa using hp₁.nodup
      · change Outline.node h c n ys = _
        rw [eq_map_of_descends hys]
        rfl

/-- Coalescing a whole forest. -/
theorem coalesce_patches {o : Outline} (ho : o.Holds f.look none) (hd : o.handles.Nodup)
    (hs : o.sound = true) (hroot : o.handle = root) (hc : o.content? = some .tree) :
    ∃ f', f.coalesce = .ok f' ∧ Patches f f' none [o] [o.coalescedWithin f.visitDepth] := by
  cases o with
  | conflict => cases hc
  | node h c n cs =>
      obtain ⟨f', y, he, hpatch, rfl⟩ := coalesce_visits f.visitDepth [] hs
        (ho.length_le_visitDepth hd) (Place.whole ho hd)
      refine ⟨f', ?_, hpatch⟩
      rw [coalesce, downward, ← hroot]
      exact he

end Forest

end Reconcile
