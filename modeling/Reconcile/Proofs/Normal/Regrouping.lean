import Reconcile.Proofs.Normal.Nesting

namespace Reconcile

open Forest Outline

/-- One outline changes while others that were in it have no parent for now. -/
structure Scatters (f f' : Forest) (parent : Option Handle) (x y : Outline) (loose : List Outline) :
    Prop where
  patches : Patches f f' parent [x] [y]
  holds : ∀ o ∈ loose, o.Holds f'.look none
  nodup : (y.handles ++ loose.flatMap handles).Nodup
  fresh : ∀ k ∈ loose.flatMap handles, k ∈ x.handles ∨ f.size ≤ k

namespace Scatters

variable {f f₁ f₂ : Forest} {parent : Option Handle} {x y z o : Outline} {h k : Handle} {c d : Content}
  {n m : Notes} {cs loose xs ms rest after : List Outline}

theorem refl (hx : x.Holds f.look parent) (hd : x.handles.Nodup) : Scatters f f parent x x [] where
  patches := Patches.refl (by simpa using hx) (by simpa using hd)
  holds := by simp
  nodup := by simpa using hd
  fresh := by simp

theorem perm {loose' : List Outline} (hs : Scatters f f₁ parent x o loose) (hp : loose.Perm loose') :
    Scatters f f₁ parent x o loose' where
  patches := hs.patches
  holds := fun o ho => hs.holds o (hp.mem_iff.mpr ho)
  nodup := ((hp.flatMap_right handles).append_left _).nodup hs.nodup
  fresh := fun k hk => hs.fresh k ((hp.flatMap_right handles).mem_iff.mpr hk)

theorem patched (hs : Scatters f f₁ parent x y loose) (hp : Patches f₁ f₂ parent [y] [z]) :
    Scatters f f₂ parent x z loose := by
  have hd := List.nodup_append'.mp hs.nodup
  refine ⟨hs.patches.trans hp, ?_, ?_, hs.fresh⟩
  · intro o ho
    refine hp.bystander (hs.holds o ho) fun k hk hky => ?_
    exact hd.2.2 (by simpa using hky) (handles_subset ho hk)
  · refine List.nodup_append'.mpr ⟨by simpa using hp.nodup, hd.2.1, fun k hkz hk => ?_⟩
    rcases hp.fresh k (by simpa using hkz) with hky | hlt
    · exact hd.2.2 (by simpa using hky) hk
    · obtain ⟨o, ho, hk⟩ := List.mem_flatMap.mp hk
      exact Nat.not_lt.mpr hlt ((hs.holds o ho).lt_size hk)

theorem old_or_new (hs : Scatters f f₁ parent x y loose) :
    ∀ k ∈ y.handles ++ loose.flatMap handles, k ∈ x.handles ∨ f.size ≤ k := by
  intro k hk
  rcases List.mem_append.mp hk with hk | hk
  · have hfresh := hs.patches.fresh k (by simpa using hk)
    simpa using hfresh
  · exact hs.fresh k hk

/-- What is in the outline and what is loose can change places. -/
theorem rearranged {loose' : List Outline} (hs : Scatters f f₁ parent x y loose)
    (hz : z.Holds f₂.look parent) (hh : z.handle = y.handle) (hl : ∀ o ∈ loose', o.Holds f₂.look none)
    (hsize : f₂.size = f₁.size)
    (hframe : ∀ k ∉ y.handles ++ loose.flatMap handles, f₂.look k = f₁.look k)
    (hsub : (z.handles ++ loose'.flatMap handles).Subperm (y.handles ++ loose.flatMap handles)) :
    Scatters f f₂ parent x z loose' := by
  have hd := nodup_of_subperm hsub hs.nodup
  have hfresh : ∀ k ∈ z.handles ++ loose'.flatMap handles, k ∈ x.handles ∨ f.size ≤ k :=
    fun k hk => hs.old_or_new k (hsub.subset hk)
  refine ⟨⟨by simpa using hz, ?_, hsize ▸ hs.patches.size, ?_, ?_, ?_⟩, hl, hd, ?_⟩
  · rw [← hs.patches.handles, List.map_singleton, List.map_singleton, hh]
  · intro k hk hkx
    rw [← hs.patches.frame k hk hkx]
    apply hframe
    intro hm
    rcases hs.old_or_new k hm with hm | hle
    · exact hkx (by simpa using hm)
    · exact Nat.not_lt.mpr hle hk
  · rw [List.flatMap_singleton]
    exact (List.nodup_append'.mp hd).1
  · intro k hk
    rw [List.flatMap_singleton] at hk ⊢
    exact hfresh k (List.mem_append_left _ hk)
  · exact fun k hk => hfresh k (List.mem_append_right _ hk)

theorem detach (hs : Scatters f f₁ parent x (node h c n (o :: after)) loose) :
    ∃ f₂, f₁.detach o.handle = .ok f₂ ∧
      Scatters f f₂ parent x (node h c n after) (loose ++ [o]) := by
  obtain ⟨ho, hd, -⟩ := hs.patches.single
  have hperm : ((node h c n after).handles ++ (loose ++ [o]).flatMap handles).Perm
      ((node h c n (o :: after)).handles ++ loose.flatMap handles) := by
    simp only [handles_node, List.flatMap_cons, List.flatMap_append, List.flatMap_nil,
      List.perm_iff_count, List.count_append, List.count_cons, List.count_nil]
    intro k
    omega
  obtain ⟨f₂, he, hloose, hp⟩ := @detach_patches f₁ parent h c n o [] after ho hd
  have hs₂ := hs.patched hp
  refine ⟨f₂, he, hs₂.patches, ?_, hperm.symm.nodup hs.nodup, ?_⟩
  · rw [List.forall_mem_append, List.forall_mem_singleton]
    exact ⟨hs₂.holds, hloose⟩
  · exact fun k hk => hs.old_or_new k (hperm.mem_iff.mp (List.mem_append_right _ hk))

theorem disband (hs : Scatters f f₁ parent x y (loose ++ [node k d m ms])) :
    ∃ f₂, (ms.map handle).foldlM Forest.detach f₁ = .ok f₂ ∧
      Scatters f f₂ parent x y (loose ++ ms) := by
  have hperm : (y.handles ++ (loose ++ [node k d m ms]).flatMap handles).Perm
      (k :: (ms.flatMap handles ++ (y.handles ++ loose.flatMap handles))) := by
    simp only [handles_node, List.flatMap_cons, List.flatMap_append, List.flatMap_nil,
      List.perm_iff_count, List.count_append, List.count_cons, List.count_nil]
    intro k
    omega
  have hd := hperm.nodup hs.nodup
  rw [List.nodup_cons, List.mem_append, not_or, List.nodup_append'] at hd
  obtain ⟨⟨hkm, hkr⟩, hms, -, hdis⟩ := hd
  obtain ⟨hk, hmembers⟩ := (holds_node ..).mp (hs.holds (node k d m ms) (by simp))
  have hready : Moves.Ready f₁ (some k) none ms := by
    refine ⟨nofun, ?_, hms⟩
    rintro _ ⟨⟩
    exact ⟨hkm, _, hk⟩
  obtain ⟨f₂, he, hmv⟩ := @Moves.foldlM f₁ (some k) none ms Forest.detach id (fun _ _ => rfl) hready
    hmembers fun _ hr hx => detach_moves hr hx
  rw [List.map_id] at hmv
  have hold : ∀ z ∈ y.handles ++ loose.flatMap handles, f₂.look z = f₁.look z := by
    intro z hz
    refine hmv.look_eq (fun hm => hdis hm hz) nofun ?_
    rintro ⟨⟩
    exact hkr hz
  refine ⟨f₂, he, hs.rearranged ?_ rfl ?_ hmv.size ?_ ?_⟩
  · exact hs.patches.single.1.congr fun z hz => hold z (List.mem_append_left _ hz)
  · rw [List.forall_mem_append]
    refine ⟨fun o ho => ?_, hmv.holds⟩
    apply (hs.holds o (List.mem_append_left _ ho)).congr
    exact fun z hz => hold z (List.mem_append_right _ (handles_subset ho hz))
  · intro z hz
    rw [hperm.mem_iff, List.mem_cons, List.mem_append, not_or, not_or] at hz
    exact hmv.look_eq hz.2.1 nofun (by simpa using Ne.symm hz.1)
  · rw [List.flatMap_append, List.flatMap_append, List.flatMap_singleton, handles_node]
    exact (((List.sublist_cons_self ..).append_left _).append_left _).subperm

theorem absorb (hs : Scatters f f₁ parent x (node h c n (cs ++ [node k d m []])) (xs ++ rest))
    (hcd : d.isContainer = true) :
    ∃ f₂, f₁.attachAll k (xs.map handle) = .ok f₂ ∧ f₂.size = f₁.size ∧
      Scatters f f₂ parent x (node h c n (cs ++ [node k d m xs])) rest := by
  have hperm : ((node h c n (cs ++ [node k d m []])).handles ++ (xs ++ rest).flatMap handles).Perm
      (k :: (xs.flatMap handles ++ (h :: (cs.flatMap handles ++ rest.flatMap handles)))) := by
    simp only [handles_node, List.flatMap_cons, List.flatMap_append, List.flatMap_nil,
      List.perm_iff_count, List.count_append, List.count_cons, List.count_nil]
    intro k
    omega
  have hd := hperm.nodup hs.nodup
  rw [List.nodup_cons, List.mem_append, not_or, List.nodup_append'] at hd
  obtain ⟨⟨hkx, hkr⟩, hxs, -, hdis⟩ := hd
  obtain ⟨hh, hcs⟩ := (holds_node ..).mp hs.patches.single.1
  have hk := ((holds_node ..).mp (hcs (node k d m []) (by simp))).1
  have hready : Moves.Ready f₁ none (some k) xs := by
    refine ⟨?_, nofun, hxs⟩
    rintro _ ⟨⟩
    exact ⟨hkx, _, hk, hcd⟩
  obtain ⟨f₂, he, hmv⟩ := attachAll_moves hready
    (fun x hx => hs.holds x (List.mem_append_left _ hx)) nofun
  have hold : ∀ z ∈ h :: (cs.flatMap handles ++ rest.flatMap handles), f₂.look z = f₁.look z := by
    intro z hz
    refine hmv.look_eq (fun hm => hdis hm hz) ?_ nofun
    rintro ⟨⟩
    exact hkr hz
  refine ⟨f₂, he, hmv.size, hs.rearranged ?_ rfl ?_ hmv.size ?_ ?_⟩
  · refine (holds_node ..).mpr ⟨?_, ?_⟩
    · rw [hold h List.mem_cons_self, hh, List.map_append, List.map_append]
      rfl
    · rw [List.forall_mem_append, List.forall_mem_singleton]
      refine ⟨fun o ho => ?_, (holds_node ..).mpr ⟨hmv.look_target hkx hk, hmv.holds⟩⟩
      apply (hcs o (List.mem_append_left _ ho)).congr
      exact fun z hz => hold z (by simp [handles_subset ho hz])
  · intro o ho
    apply (hs.holds o (List.mem_append_right _ ho)).congr
    exact fun z hz => hold z (by simp [handles_subset ho hz])
  · intro z hz
    rw [hperm.mem_iff, List.mem_cons, List.mem_append, not_or, not_or] at hz
    exact hmv.look_eq hz.2.1 (by simpa using Ne.symm hz.1) nofun
  · refine List.Perm.subperm (List.Perm.trans ?_ hperm.symm)
    simp only [handles_node, List.flatMap_cons, List.flatMap_append, List.flatMap_nil,
      List.perm_iff_count, List.count_append, List.count_cons, List.count_nil]
    intro k
    omega

theorem gather (hs : Scatters f f₁ parent x (node h c n cs) (xs ++ rest)) (hc : c.isContainer = true)
    (hcd : d.isContainer = true) (hne : xs ≠ []) :
    ∃ f₂, Forest.gather h d f₁ (xs.map handle) = .ok f₂ ∧ f₁.size ≤ f₂.size ∧
      Scatters f f₂ parent x (node h c n (cs ++ [node f₁.size d {} xs])) rest := by
  obtain ⟨ho, hd, -⟩ := hs.patches.single
  obtain ⟨f₂, he₂, hsize₂, hp⟩ := append_patches ho hd hc
  obtain ⟨f₃, he₃, hsize₃, hs₃⟩ := (hs.patched hp).absorb hcd
  refine ⟨f₃, ?_, by omega, hs₃⟩
  have hempty : (xs.map handle).isEmpty = false := by simpa using hne
  simp only [Forest.gather, hempty, he₂, bind, Except.bind]
  exact he₃

theorem release (acc : List (Category × Handle))
    (hs : Scatters f f₁ parent x (node h c n (o :: after)) loose) :
    ∃ f₂, Forest.release (f₁, acc) o.handle =
        .ok (f₂, acc ++ (released o).map fun r => (r.1, r.2.handle)) ∧
      Scatters f f₂ parent x (node h c n after) (loose ++ (released o).map (·.2)) := by
  obtain ⟨f₂, he₂, hs₂⟩ := hs.detach
  have ho := hs₂.holds o (by simp)
  fun_cases released o with
  | case1 g k m ms =>
      obtain ⟨f₃, he₃, hs₃⟩ := hs₂.disband
      have hg := ((holds_node ..).mp ho).1
      have hkind : f₂.kind g = .ok (.plain (.group k)) := ho.kind
      rw [handle_node] at he₂
      refine ⟨f₃, ?_, by simpa [Function.comp_def] using hs₃⟩
      simp only [Forest.release, he₂, hkind, handle_node, children_of_look hg, bind, Except.bind, he₃,
        List.map_map, Function.comp_def]
      rfl
  | case2 _ hgroup =>
      refine ⟨f₂, ?_, hs₂⟩
      simp only [Forest.release, he₂, ho.kind, bind, Except.bind]
      split
      · next hk =>
          cases o with
          | conflict => cases hk
          | node g c m ms =>
              cases hk
              exact (hgroup g _ m ms rfl).elim
      · rfl

end Scatters

variable {f f₁ f₂ : Forest} {parent : Option Handle} {x o : Outline} {h : Handle} {c : Content}
  {n : Notes} {cs loose xs rest after : List Outline} {N : Nat} {φ : Handle → Handle}

theorem Scatters.releaseAll (acc : List (Category × Handle))
    (hs : Scatters f f₁ parent x (node h c n cs) loose) :
    ∃ f₂, (cs.map handle).foldlM Forest.release (f₁, acc) =
        .ok (f₂, acc ++ (cs.flatMap released).map fun r => (r.1, r.2.handle)) ∧
      Scatters f f₂ parent x (node h c n []) (loose ++ (cs.flatMap released).map (·.2)) := by
  induction cs generalizing f₁ acc loose with
  | nil =>
      refine ⟨f₁, ?_, by simpa using hs⟩
      simp [pure, Except.pure]
  | cons o cs ih =>
      obtain ⟨f₂, he₂, hs₂⟩ := hs.release acc
      obtain ⟨f₃, he₃, hs₃⟩ := ih (acc ++ (released o).map fun r => (r.1, r.2.handle)) hs₂
      refine ⟨f₃, ?_, by simpa using hs₃⟩
      rw [List.append_assoc, ← List.map_append, ← List.flatMap_cons] at he₃
      rw [List.map_cons, List.foldlM_cons, he₂]
      exact he₃

theorem gather_category (rs : List (Category × Outline)) {k : Category} {ks : List Category}
    (hk : k ∉ ks) : ((rs.filter (·.1 ∈ k :: ks)).map (·.2)).Perm
      ((rs.filter (·.1 = k)).map (·.2) ++ (rs.filter (·.1 ∈ ks)).map (·.2)) := by
  rw [← List.map_append]
  apply List.Perm.map
  refine (List.filter_append_perm (·.1 = k) _).symm.trans (List.Perm.of_eq ?_)
  rw [List.filter_filter, List.filter_filter]
  congr 2
  · funext r
    by_cases hr : r.1 = k <;> simp [hr]
  · funext r
    by_cases hr : r.1 = k
    · simp [hr, hk]
    · simp [hr]

theorem Scatters.gatherAll (hφ : ∀ k, N ≤ k → φ k = 0) (hN : N ≤ f₁.size) {ks : List Category}
    (hks : ks.Nodup) {rs : List (Category × Outline)} (hs : Scatters f f₁ parent x (node h c n cs) ((rs.filter (·.1 ∈ ks)).map (·.2)))
    (hc : c.isContainer = true) :
    ∃ f₂ cs', ks.foldlM (fun f k => Forest.gather h (.group k) f
        (((rs.filter (·.1 = k)).map (·.2)).map handle)) f₁ = .ok f₂ ∧
      Scatters f f₂ parent x (node h c n cs') [] ∧
      cs'.map (rename φ) = cs.map (rename φ) ++ ks.flatMap fun k =>
        if ((rs.filter (·.1 = k)).map (·.2)).isEmpty then []
        else [node 0 (.group k) {} (((rs.filter (·.1 = k)).map (·.2)).map (rename φ))] := by
  induction ks generalizing f₁ cs with
  | nil => exact ⟨f₁, cs, rfl, by simpa using hs, by simp⟩
  | cons k ks ih =>
      rw [List.nodup_cons] at hks
      have hs₁ := hs.perm (gather_category rs hks.1)
      by_cases hnil : (rs.filter (·.1 = k)).map (·.2) = []
      · rw [hnil, List.nil_append] at hs₁
        obtain ⟨f₂, cs', he, hs₂, hcs'⟩ := ih hN hks.2 hs₁
        refine ⟨f₂, cs', ?_, hs₂, ?_⟩
        · rw [List.foldlM_cons, hnil]
          exact he
        · rw [hcs', List.flatMap_cons, hnil]
          rfl
      · obtain ⟨f₂, he₂, hsize, hs₂⟩ := hs₁.gather hc (d := .group k) rfl hnil
        obtain ⟨f₃, cs', he₃, hs₃, hcs'⟩ := ih (Nat.le_trans hN hsize) hks.2 hs₂
        refine ⟨f₃, cs', ?_, hs₃, ?_⟩
        · rw [List.foldlM_cons, he₂]
          exact he₃
        · rw [hcs', List.flatMap_cons, if_neg (by simpa using hnil)]
          simp [hφ _ hN]

theorem released_rename (φ : Handle → Handle) (o : Outline) :
    released (o.rename φ) = (released o).map fun r => (r.1, r.2.rename φ) := by
  fun_cases released o with
  | case1 g k m ms => simp [released, Function.comp_def]
  | case2 _ hgroup =>
      cases o with
      | conflict => rfl
      | node g c m ms =>
          rw [rename_node]
          cases c with
          | group k => exact (hgroup g k m ms rfl).elim
          | _ => simp [released, Outline.kind]

theorem members_rename (φ : Handle → Handle) (cs : List Outline) (k : Category) :
    members (cs.map (rename φ)) k = (members cs k).map (rename φ) := by
  have hr : (cs.map (rename φ)).flatMap released =
      (cs.flatMap released).map fun r => (r.1, r.2.rename φ) := by
    rw [List.flatMap_map, List.map_flatMap]
    exact List.flatMap_congr fun o _ => released_rename φ o
  rw [members, members, hr, List.filter_map, List.map_map, List.map_map]
  rfl

theorem isGroup_of_holds (ho : (node h c n cs).Holds f.look parent) :
    f.isGroup h = .ok (Outline.isGroup c) := by
  have hkind : f.kind h = .ok (.plain c) := ho.kind
  simp only [Forest.isGroup, hkind, bind, Except.bind]
  cases c with
  | _ => rfl

theorem tracks_group (hφ : ∀ k, N ≤ k → φ k = 0) : Tracks N φ groupIn Pass.group.rule := by
  intro f above parent h c n cs hN hp hc
  have ho := hp.holds _ (List.mem_singleton_self _)
  have hd : (Outline.node h c n cs).handles.Nodup := by simpa using hp.nodup
  cases hgroup : Outline.isGroup c with
  | true =>
      refine ⟨f, cs, ?_, Patches.refl hp.holds hp.nodup, (if_pos hgroup).symm⟩
      simp only [groupIn, isGroup_of_holds ho, hgroup, bind, Except.bind]
      rfl
  | false =>
      have hall : ∀ r ∈ cs.flatMap released, decide (r.1 ∈ Category.all) = true := by
        rintro ⟨k, o⟩ -
        cases k with
        | _ => rfl
      obtain ⟨f₁, he₁, hs₁⟩ := (Scatters.refl ho hd).releaseAll []
      rw [List.nil_append, ← List.filter_eq_self.mpr hall] at hs₁
      obtain ⟨f₂, cs', he₂, hs₂, hcs'⟩ :=
        hs₁.gatherAll hφ (Nat.le_trans hN hs₁.patches.size) (by decide) hc
      refine ⟨f₂, cs', ?_, hs₂.patches, ?_⟩
      · simp only [groupIn, isGroup_of_holds ho, hgroup, he₁, bind, Except.bind]
        refine Eq.trans ?_ he₂
        rw [if_neg Bool.false_ne_true, List.nil_append]
        congr 1
        funext f k
        rw [List.filter_map, List.map_map, List.map_map]
        rfl
      · have hrule : Pass.group.rule (c.within (insideOf above)) c (cs.map (rename φ)) =
            grouped (members (cs.map (rename φ))) := if_neg (by simp [hgroup])
        rw [hcs', hrule, grouped]
        refine List.flatMap_congr fun k _ => ?_
        rw [members_rename, members, List.isEmpty_map, List.isEmpty_map, List.isEmpty_map]

end Reconcile
