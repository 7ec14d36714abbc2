import Reconcile.Proofs.Forest.Holds

namespace Reconcile

open Function (update_of_ne update_self)

theorem nodup_of_subperm {hs ks : List Handle} (h : hs.Subperm ks) (hd : ks.Nodup) : hs.Nodup := by
  obtain ⟨_, hperm, hsub⟩ := h
  exact hperm.nodup (hsub.nodup hd)

/-- Outlines are changed in place: their nodes and new ones are all that differs. -/
structure Patches (f f' : Forest) (parent : Option Handle) (xs ys : List Outline) : Prop where
  holds : ∀ y ∈ ys, y.Holds f'.look parent
  handles : ys.map Outline.handle = xs.map Outline.handle
  size : f.size ≤ f'.size
  frame : ∀ k < f.size, k ∉ xs.flatMap Outline.handles → f'.look k = f.look k
  nodup : (ys.flatMap Outline.handles).Nodup
  fresh : ∀ k ∈ ys.flatMap Outline.handles, k ∈ xs.flatMap Outline.handles ∨ f.size ≤ k

namespace Patches

variable {f f' f'' : Forest} {parent : Option Handle} {x y o : Outline}
  {xs ys zs xs' ys' cs cs' : List Outline}

theorem refl (hx : ∀ x ∈ xs, x.Holds f.look parent) (hd : (xs.flatMap Outline.handles).Nodup) :
    Patches f f parent xs xs :=
  ⟨hx, rfl, Nat.le_refl _, fun _ _ _ => rfl, hd, fun _ h => Or.inl h⟩

theorem of_subperm (hy : ∀ y ∈ ys, y.Holds f'.look parent)
    (hh : ys.map Outline.handle = xs.map Outline.handle) (hs : f'.size = f.size)
    (hl : ∀ k ∉ xs.flatMap Outline.handles, f'.look k = f.look k)
    (hd : (xs.flatMap Outline.handles).Nodup)
    (hsub : (ys.flatMap Outline.handles).Subperm (xs.flatMap Outline.handles)) :
    Patches f f' parent xs ys where
  holds := hy
  handles := hh
  size := Nat.le_of_eq hs.symm
  frame := fun k _ hk => hl k hk
  nodup := nodup_of_subperm hsub hd
  fresh := fun _ hk => Or.inl (hsub.subset hk)

theorem trans (h : Patches f f' parent xs ys) (h' : Patches f' f'' parent ys zs) :
    Patches f f'' parent xs zs where
  holds := h'.holds
  handles := h'.handles.trans h.handles
  size := Nat.le_trans h.size h'.size
  frame := by
    intro k hk hx
    rw [h'.frame k (Nat.lt_of_lt_of_le hk h.size), h.frame k hk hx]
    intro hy
    rcases h.fresh k hy with hy | hy
    · exact hx hy
    · exact Nat.not_lt.mpr hy hk
  nodup := h'.nodup
  fresh := by
    intro k hz
    rcases h'.fresh k hz with hy | hy
    · exact h.fresh k hy
    · exact Or.inr (Nat.le_trans h.size hy)

theorem look_eq (h : Patches f f' parent xs ys) (hs : f'.size = f.size) {k : Handle}
    (hk : k ∉ xs.flatMap Outline.handles) : f'.look k = f.look k := by
  by_cases hlt : k < f.size
  · exact h.frame k hlt hk
  · have hle := Nat.not_lt.mp hlt
    rw [Forest.look_none (hs ▸ hle), Forest.look_none hle]

theorem single (h : Patches f f' parent [x] [y]) :
    y.Holds f'.look parent ∧ y.handles.Nodup ∧ y.handle = x.handle := by
  refine ⟨h.holds y (List.mem_singleton_self y), by simpa using h.nodup, ?_⟩
  have hh := h.handles
  simp only [List.map_cons, List.map_nil, List.cons.injEq, and_true] at hh
  exact hh

/-- What shares no node with the place of a patch is held as before. -/
theorem bystander {p : Option Handle} (h : Patches f f' parent xs ys) (ho : o.Holds f.look p)
    (hd : o.handles.Disjoint (xs.flatMap Outline.handles)) : o.Holds f'.look p :=
  ho.congr fun k hk => h.frame k (ho.lt_size hk) (hd hk)

theorem append (h : Patches f f' parent xs ys) (h' : Patches f' f'' parent xs' ys')
    (hx' : ∀ x ∈ xs', x.Holds f.look parent) (hd : ((xs ++ xs').flatMap Outline.handles).Nodup) :
    Patches f f'' parent (xs ++ xs') (ys ++ ys') := by
  rw [List.flatMap_append, List.nodup_append'] at hd
  have hlt : ∀ k ∈ xs'.flatMap Outline.handles, k < f.size := by
    intro k hk
    obtain ⟨x, hx, hk⟩ := List.mem_flatMap.mp hk
    exact (hx' x hx).lt_size hk
  have hdisj : (ys.flatMap Outline.handles).Disjoint (xs'.flatMap Outline.handles) := by
    intro k hy hk
    rcases h.fresh k hy with hy | hy
    · exact hd.2.2 hy hk
    · exact Nat.not_lt.mpr hy (hlt k hk)
  refine ⟨?_, by rw [List.map_append, List.map_append, h.handles, h'.handles],
    Nat.le_trans h.size h'.size, ?_, ?_, ?_⟩
  · intro y hy
    rcases List.mem_append.mp hy with hy | hy
    · refine h'.bystander (h.holds y hy) ?_
      intro k hk
      exact hdisj (List.mem_flatMap.mpr ⟨y, hy, hk⟩)
    · exact h'.holds y hy
  · intro k hk hn
    rw [List.flatMap_append, List.mem_append, not_or] at hn
    rw [h'.frame k (Nat.lt_of_lt_of_le hk h.size) hn.2, h.frame k hk hn.1]
  · rw [List.flatMap_append, List.nodup_append']
    refine ⟨h.nodup, h'.nodup, ?_⟩
    intro k hy hy'
    rcases h'.fresh k hy' with hk | hk
    · exact hdisj hy hk
    · obtain ⟨y, hy, hk'⟩ := List.mem_flatMap.mp hy
      exact Nat.not_lt.mpr hk ((h.holds y hy).lt_size hk')
  · intro k hk
    rw [List.flatMap_append, List.mem_append] at hk ⊢
    rcases hk with hk | hk
    · rcases h.fresh k hk with hk | hk
      · exact Or.inl (Or.inl hk)
      · exact Or.inr hk
    · rcases h'.fresh k hk with hk | hk
      · exact Or.inl (Or.inr hk)
      · exact Or.inr (Nat.le_trans h.size hk)

theorem below {n : Node} (h : Patches f f' (some x.handle) cs cs')
    (hn : f.look x.handle = some n) (hk : x.handle ∉ cs.flatMap Outline.handles) :
    f'.look x.handle = some n ∧ x.handle ∉ cs'.flatMap Outline.handles := by
  refine ⟨by rw [h.frame _ (Forest.look_lt hn) hk, hn], fun hm => ?_⟩
  rcases h.fresh _ hm with hm | hm
  · exact hk hm
  · exact Nat.not_lt.mpr hm (Forest.look_lt hn)

theorem above (h : Patches f f' (some x.handle) cs cs') (hx : x.handles = x.handle :: cs.flatMap Outline.handles)
    (hy : y.handles = x.handle :: cs'.flatMap Outline.handles) (hxy : y.handle = x.handle)
    (hk : x.handle ∉ cs'.flatMap Outline.handles) (ho : y.Holds f'.look parent) :
    Patches f f' parent [x] [y] where
  holds := by simpa using ho
  handles := by simpa using hxy
  size := h.size
  frame := by
    intro k hk hn
    rw [List.flatMap_singleton, hx, List.mem_cons, not_or] at hn
    exact h.frame k hk hn.2
  nodup := by
    rw [List.flatMap_singleton, hy]
    exact List.nodup_cons.mpr ⟨hk, h.nodup⟩
  fresh := by
    intro k hk
    rw [List.flatMap_singleton, hy, List.mem_cons] at hk
    rw [List.flatMap_singleton, hx, List.mem_cons]
    rcases hk with hk | hk
    · exact Or.inl (Or.inl hk)
    · rcases h.fresh k hk with hk | hk
      · exact Or.inl (Or.inr hk)
      · exact Or.inr hk

theorem node {h : Handle} {c : Content} {n : Notes} (hp : Patches f f' (some h) cs cs')
    (ho : (Outline.node h c n cs).Holds f.look parent) (hd : (Outline.node h c n cs).handles.Nodup) :
    Patches f f' parent [.node h c n cs] [.node h c n cs'] := by
  rw [Outline.handles_node, List.nodup_cons] at hd
  rw [Outline.holds_node] at ho
  obtain ⟨hl, hk⟩ := @below f f' (.node h c n cs) cs cs' _ hp ho.1 hd.1
  refine @above f f' parent (.node h c n cs) _ cs cs' hp (by simp) (by simp) rfl hk ?_
  rw [Outline.holds_node, hp.handles]
  exact ⟨hl, hp.holds⟩

theorem conflict {h : Handle} {form : ConflictForm} {labels : Labels} {n : Notes}
    {l r l' r' : Outline} (hp : Patches f f' (some h) [l, r] [l', r'])
    (ho : (Outline.conflict h form labels n l r).Holds f.look parent)
    (hd : (Outline.conflict h form labels n l r).handles.Nodup) :
    Patches f f' parent [.conflict h form labels n l r] [.conflict h form labels n l' r'] := by
  rw [Outline.handles_conflict, List.nodup_cons] at hd
  rw [Outline.holds_conflict] at ho
  have hside : h ∉ [l, r].flatMap Outline.handles := by simpa using hd.1
  obtain ⟨hl, hk⟩ := @below f f' (.conflict h form labels n l r) [l, r] [l', r'] _ hp ho.1 hside
  refine @above f f' parent (.conflict h form labels n l r) _ [l, r] [l', r'] hp (by simp) (by simp)
    rfl hk ?_
  have hh := hp.handles
  simp only [List.map_cons, List.map_nil, List.cons.injEq, and_true] at hh
  rw [Outline.holds_conflict, hh.1, hh.2]
  exact ⟨hl, hp.holds l' (by simp), hp.holds r' (by simp)⟩

theorem amid {before after : List Outline} (hp : Patches f f' parent xs ys)
    (ho : ∀ o ∈ before ++ (xs ++ after), o.Holds f.look parent)
    (hd : ((before ++ (xs ++ after)).flatMap Outline.handles).Nodup) :
    Patches f f' parent (before ++ (xs ++ after)) (before ++ (ys ++ after)) := by
  have hd' := hd
  simp only [List.flatMap_append, List.nodup_append', List.disjoint_append_right] at hd'
  obtain ⟨hb, ⟨-, ha, hxa⟩, -⟩ := hd'
  have hafter : ∀ o ∈ after, o.Holds f'.look parent := by
    intro o hm
    refine hp.bystander (ho o (by simp [hm])) fun k hk hx => ?_
    exact hxa hx (List.mem_flatMap.mpr ⟨o, hm, hk⟩)
  have hright := hp.append (refl hafter ha) (fun o hm => ho o (by simp [hm]))
    (by rw [List.flatMap_append, List.nodup_append'] at hd; exact hd.2.1)
  refine (refl (fun o hm => ho o (by simp [hm])) hb).append hright ?_ hd
  intro o hm
  exact ho o (List.mem_append_right _ hm)

theorem among {before after : List Outline} (hp : Patches f f' parent [x] [y])
    (ho : ∀ o ∈ before ++ x :: after, o.Holds f.look parent)
    (hd : ((before ++ x :: after).flatMap Outline.handles).Nodup) :
    Patches f f' parent (before ++ x :: after) (before ++ y :: after) :=
  hp.amid ho hd

theorem fill {fr : Frame} (hp : Patches f f' (some fr.handle) [x] [y])
    (ho : (fr.fill x).Holds f.look parent) (hd : (fr.fill x).handles.Nodup) :
    Patches f f' parent [fr.fill x] [fr.fill y] := by
  cases fr with
  | node h c n before after =>
      have ho' := (Outline.holds_node ..).mp ho
      have hd' := (List.nodup_cons.mp (Outline.handles_node .. ▸ hd)).2
      exact (hp.among ho'.2 hd').node ho hd
  | left h form labels n r =>
      have ho' := (Outline.holds_conflict ..).mp ho
      have hd' := (List.nodup_cons.mp (Outline.handles_conflict .. ▸ hd)).2
      have hside : ∀ o ∈ [x, r], o.Holds f.look (some h) := by simpa using ho'.2
      exact (@among f f' (some h) x y [] [r] hp hside (by simpa using hd')).conflict ho hd

/-- What happens at the end of a way down is all that happens. -/
theorem plug {path : List Frame} (hp : Patches f f' (parentOf parent path) [x] [y])
    (ho : (x.plug path).Holds f.look parent) (hd : (x.plug path).handles.Nodup) :
    Patches f f' parent [x.plug path] [y.plug path] := by
  induction path generalizing x y with
  | nil => exact hp
  | cons fr path ih =>
      have hfill : Patches f f' (parentOf parent path) [fr.fill x] [fr.fill y] := by
        refine hp.fill ((holds_plug path _).mp ho).2 ?_
        exact (@Outline.nodup_plug_iff path (fr.fill x) |>.mp hd).2.1
      exact ih hfill ho hd

end Patches

namespace Forest

variable {f : Forest} {parent : Option Handle} {h : Handle} {c d : Content} {n m : Notes}
  {cs : List Outline}

theorem append_patches (hx : (Outline.node h c n cs).Holds f.look parent)
    (hd : (Outline.node h c n cs).handles.Nodup) (hc : c.isContainer = true) :
    ∃ f', f.append h d m = .ok (f', f.size) ∧ f'.size = f.size + 1 ∧
      Patches f f' parent [.node h c n cs] [.node h c n (cs ++ [.node f.size d m []])] := by
  have hx' := (Outline.holds_node ..).mp hx
  have hd' := List.nodup_cons.mp (Outline.handles_node .. ▸ hd)
  obtain ⟨f', he, hs, hl⟩ := Forest.append_spec hx'.1 hc d m
  have hne : h ≠ f.size := Nat.ne_of_lt (Forest.look_lt hx'.1)
  have old : ∀ k < f.size, k ≠ h → f'.look k = f.look k := by
    intro k hk hkh
    rw [hl, update_of_ne (Nat.ne_of_lt hk), update_of_ne hkh]
  have hnew : f.size ∉ cs.flatMap Outline.handles := by
    intro hm
    obtain ⟨o, ho, hk⟩ := List.mem_flatMap.mp hm
    exact Nat.lt_irrefl _ ((hx'.2 o ho).lt_size hk)
  refine ⟨f', he, hs, ?_, by simp, by omega, ?_, ?_, ?_⟩
  · intro y hy
    cases List.mem_singleton.mp hy
    rw [Outline.holds_node]
    refine ⟨by rw [hl, update_of_ne hne, update_self]; simp, ?_⟩
    intro o ho
    rcases List.mem_append.mp ho with ho | ho
    · apply (hx'.2 o ho).congr
      intro k hk
      apply old k ((hx'.2 o ho).lt_size hk)
      rintro rfl
      exact hd'.1 (List.mem_flatMap.mpr ⟨o, ho, hk⟩)
    · cases List.mem_singleton.mp ho
      simp [hl]
  · intro k hk hn
    apply old k hk
    rintro rfl
    exact hn (by simp)
  · simp only [List.flatMap_cons, List.flatMap_nil, List.append_nil, Outline.handles_node,
      List.flatMap_append, List.nodup_cons, List.mem_append, List.nodup_append', not_or]
    exact ⟨⟨hd'.1, by simpa using hne⟩, hd'.2, by simp, by simpa using hnew⟩
  · intro k hk
    simp only [List.flatMap_cons, List.flatMap_nil, List.append_nil, Outline.handles_node,
      List.flatMap_append, List.mem_cons, List.mem_append, List.not_mem_nil, or_false] at hk ⊢
    rcases hk with hk | hk | rfl
    · exact Or.inl (Or.inl hk)
    · exact Or.inl (Or.inr hk)
    · exact Or.inr (Nat.le_refl _)

theorem update_patches {g : Node → Node} (hx : (Outline.node h c n cs).Holds f.look parent)
    (hd : (Outline.node h c n cs).handles.Nodup)
    (hg : g ⟨.plain c, n, parent, cs.map Outline.handle⟩ =
      ⟨.plain d, m, parent, cs.map Outline.handle⟩) :
    ∃ f', f.update h g = .ok f' ∧ f'.size = f.size ∧
      Patches f f' parent [.node h c n cs] [.node h d m cs] := by
  have hx' := (Outline.holds_node ..).mp hx
  have hd' := List.nodup_cons.mp (Outline.handles_node .. ▸ hd)
  obtain ⟨f', he, hs, hl⟩ := Forest.update_spec hx'.1 g
  have old : ∀ k, k ≠ h → f'.look k = f.look k := by
    intro k hkh
    rw [hl, update_of_ne hkh]
  refine ⟨f', he, hs, .of_subperm ?_ rfl hs ?_ (by simpa using hd) ?_⟩
  · intro y hy
    cases List.mem_singleton.mp hy
    rw [Outline.holds_node]
    refine ⟨by rw [hl, update_self, hg], ?_⟩
    intro o ho
    apply (hx'.2 o ho).congr
    intro k hk
    apply old k
    rintro rfl
    exact hd'.1 (List.mem_flatMap.mpr ⟨o, ho, hk⟩)
  · intro k hn
    apply old k
    rintro rfl
    exact hn (by simp)
  · simp only [List.flatMap_singleton, Outline.handles_node, List.Subperm.refl]

theorem detach_patches {x : Outline} {before after : List Outline}
    (ho : (Outline.node h c n (before ++ x :: after)).Holds f.look parent)
    (hd : (Outline.node h c n (before ++ x :: after)).handles.Nodup) :
    ∃ f', f.detach x.handle = .ok f' ∧ x.Holds f'.look none ∧
      Patches f f' parent [.node h c n (before ++ x :: after)] [.node h c n (before ++ after)] := by
  have hperm : ((before ++ x :: after).flatMap Outline.handles).Perm
      (x.handles ++ (before ++ after).flatMap Outline.handles) := List.perm_middle.flatMap_right _
  have hd' := hd
  rw [Outline.handles_node, (hperm.cons h).nodup_iff, List.nodup_cons, List.mem_append, not_or,
    List.nodup_append'] at hd'
  obtain ⟨⟨hhx, hrest⟩, hdx, -, hdis⟩ := hd'
  obtain ⟨hlook, hcs⟩ := (Outline.holds_node ..).mp ho
  have hx := hcs x (by simp)
  obtain ⟨k, hk, hparent⟩ := hx.look_handle
  have hne : h ≠ x.handle := fun he => hhx (he ▸ x.handle_mem_handles)
  obtain ⟨f', he, hs, hl⟩ := detach_spec hk hparent hlook hne
  have hold : ∀ k, k ≠ h → k ≠ x.handle → f'.look k = f.look k := by
    intro k hkh hkx
    rw [hl, update_of_ne hkh, update_of_ne hkx]
  refine ⟨f', he, hx.reparent hdx hk ?_ ?_, .of_subperm ?_ rfl hs ?_ (by simpa using hd) ?_⟩
  · rw [hl, update_of_ne (Ne.symm hne), update_self]
  · exact fun y hy hyx => hold y (fun he => hhx (he ▸ hy)) hyx
  · intro y hy
    cases List.mem_singleton.mp hy
    refine (Outline.holds_node ..).mpr ⟨?_, fun o ho => ?_⟩
    · have hx : x.handle ∉ (before ++ after).map Outline.handle := fun hm =>
        hdis x.handle_mem_handles (Outline.map_handle_subset _ hm)
      rw [List.map_append, List.mem_append, not_or] at hx
      rw [hl, update_self, List.map_append, List.map_cons, filter_middle hx.1 hx.2, List.map_append]
    · have hmem := ((List.sublist_cons_self x after).append_left before).subset ho
      refine (hcs o hmem).congr fun k hk => ?_
      have hk := Outline.handles_subset ho hk
      exact hold k (fun he => hrest (he ▸ hk)) fun he => hdis x.handle_mem_handles (he ▸ hk)
  · intro k hk
    rw [List.flatMap_singleton, Outline.handles_node, List.mem_cons, not_or, hperm.mem_iff,
      List.mem_append, not_or] at hk
    exact hold k hk.1 fun he => hk.2.1 (he ▸ x.handle_mem_handles)
  · rw [List.flatMap_singleton, List.flatMap_singleton, Outline.handles_node, Outline.handles_node,
      List.flatMap_append, List.flatMap_append, List.flatMap_cons]
    exact (((List.sublist_append_right ..).append_left _).cons_cons h).subperm

end Forest

end Reconcile
