import Reconcile.Proofs.Merge.Conservation

namespace Reconcile

namespace Outline

def HasConflict (o : Outline) (form : ConflictForm) (l r : Outline) : Prop :=
  ∃ k labels n, conflict k form labels n l r ∈ o.subtrees

/-- Two nodes are next to each other on the right side of one conflict of declarations. -/
def Together (o : Outline) (a b : Handle) : Prop :=
  ∃ l r, o.HasConflict .declarations l r ∧ a ∈ r.children.map handle ∧ b ∈ r.children.map handle

def bringsTogether (a b : Handle) : Outline → Bool
  | conflict _ .declarations _ _ _ r =>
      (r.children.map handle).contains a && (r.children.map handle).contains b
  | _ => false

theorem together_iff {o : Outline} {a b : Handle} :
    o.Together a b ↔ o.subtrees.any (bringsTogether a b) = true := by
  rw [List.any_eq_true]
  constructor
  · rintro ⟨l, r, ⟨k, labels, n, hm⟩, ha, hb⟩
    exact ⟨_, hm, by simpa [bringsTogether] using ⟨by simpa using ha, by simpa using hb⟩⟩
  · rintro ⟨x, hx, h⟩
    unfold bringsTogether at h
    split at h
    · next k labels n l r =>
        rw [Bool.and_eq_true, List.contains_iff_mem, List.contains_iff_mem] at h
        exact ⟨l, r, ⟨k, labels, n, hx⟩, h⟩
    · cases h

instance (o : Outline) (a b : Handle) : Decidable (o.Together a b) := decidable_of_iff' _ together_iff

/-- A conflict of declarations has the one on its right side, and on its left side a conflict that
has the other one on the right. -/
def Over (o : Outline) (a b : Handle) : Prop :=
  ∃ l r, o.HasConflict .declarations l r ∧ a ∈ r.children.map handle ∧ b ∈ l.rivals.map handle

def Disputes (o : Outline) (a b : Handle) : Prop :=
  ∃ l r, o.HasConflict .declarations l r ∧ a ∈ l.declared ∧ b ∈ r.children.map handle

/-- A conflict of declarations sets two nodes against each other, with nothing between it and them. -/
def Flanks (o : Outline) (a b : Handle) : Prop :=
  ∃ l r, o.HasConflict .declarations l r ∧ a ∈ l.children.map handle ∧ b ∈ r.children.map handle

def Heads (o : Outline) (a b : Handle) : Prop :=
  ∃ l r, o.HasConflict .headers l r ∧ l.handle = a ∧ r.handle = b

variable {o x y z l r l' r' : Outline} {form form' : ConflictForm} {a b : Handle} {path : List Frame}
  {gone : Handle → Prop}

@[simp] theorem hasConflict_node (h : Handle) (c : Content) (n : Notes) (cs : List Outline) :
    (node h c n cs).HasConflict form l r ↔ ∃ x ∈ cs, x.HasConflict form l r := by
  simp only [HasConflict, subtrees_node, List.mem_cons, reduceCtorEq, List.mem_flatMap, false_or]
  grind

@[simp] theorem hasConflict_conflict (h : Handle) (labels : Labels) (n : Notes) :
    (conflict h form' labels n l' r').HasConflict form l r ↔
      (form' = form ∧ l' = l ∧ r' = r) ∨ l'.HasConflict form l r ∨ r'.HasConflict form l r := by
  simp only [HasConflict, subtrees_conflict, List.mem_cons, List.mem_append, conflict.injEq]
  grind

theorem hasConflict_at (path : List Frame) (k : Handle) (form : ConflictForm) (labels : Labels)
    (n : Notes) (l r : Outline) : (plug path (conflict k form labels n l r)).HasConflict form l r :=
  ⟨k, labels, n, subtrees_plug path (mem_subtrees_self _)⟩

theorem Holds.hasConflict {look : Handle → Option Node} {parent : Option Handle}
    (ho : o.Holds look parent) (h : o.HasConflict form l r) : ∃ k labels n p,
      conflict k form labels n l r ∈ o.subtrees ∧
      look k = some ⟨.conflict form labels l.handle r.handle, n, p, []⟩ ∧
      l.Holds look (some k) ∧ r.Holds look (some k) := by
  obtain ⟨k, labels, n, hm⟩ := h
  obtain ⟨p, hk⟩ := ho.of_mem_subtrees hm
  obtain ⟨hk, hl, hr⟩ := (holds_conflict ..).mp hk
  exact ⟨k, labels, n, p, hm, hk, hl, hr⟩

theorem Holds.child {look : Handle → Option Node} {parent : Option Handle} (hx : x.Holds look parent)
    (ha : a ∈ x.children.map handle) : ∃ m, look a = some m ∧ m.parent = some x.handle := by
  obtain ⟨z, hz, rfl⟩ := List.mem_map.mp ha
  cases x with
  | node h c n cs => exact (((holds_node ..).mp hx).2 z hz).look_handle
  | conflict => cases hz

theorem Holds.handle_eq_of_child {look : Handle → Option Node} {p q : Option Handle}
    (hx : x.Holds look p) (hy : y.Holds look q) (ha : a ∈ x.children.map handle)
    (ha' : a ∈ y.children.map handle) : x.handle = y.handle := by
  obtain ⟨m, hm, hp⟩ := hx.child ha
  obtain ⟨m', hm', hp'⟩ := hy.child ha'
  cases hm.symm.trans hm'
  exact Option.some.inj (hp.symm.trans hp')

theorem Holds.conflict_unique {look : Handle → Option Node} {parent : Option Handle}
    (ho : o.Holds look parent) (hd : o.handles.Nodup) (h : o.HasConflict form l r)
    (h' : o.HasConflict form' l' r') (hs : l.handle = l'.handle ∨ r.handle = r'.handle) :
    form = form' ∧ l = l' ∧ r = r' := by
  obtain ⟨k, labels, n, p, hm, -, hl, hr⟩ := ho.hasConflict h
  obtain ⟨k', labels', n', p', hm', -, hl', hr'⟩ := ho.hasConflict h'
  have hk : k = k' := by
    rcases hs with hs | hs
    · obtain ⟨m, hm, hp⟩ := hl.look_handle
      obtain ⟨m', hm', hp'⟩ := hl'.look_handle
      rw [hs, hm'] at hm
      cases hm
      exact Option.some.inj (hp.symm.trans hp')
    · obtain ⟨m, hm, hp⟩ := hr.look_handle
      obtain ⟨m', hm', hp'⟩ := hr'.look_handle
      rw [hs, hm'] at hm
      cases hm
      exact Option.some.inj (hp.symm.trans hp')
  have heq := eq_of_handle hd hm hm' hk
  cases heq
  exact ⟨rfl, rfl, rfl⟩

theorem sublist_handles_of_mem_subtrees (hx : x ∈ o.subtrees) : x.handles.Sublist o.handles := by
  induction o with
  | node h c n cs ih =>
      rw [subtrees_node, List.mem_cons, List.mem_flatMap] at hx
      rcases hx with rfl | ⟨z, hz, hx⟩
      · exact List.Sublist.refl _
      · rw [handles_node]
        exact ((ih z hz hx).trans (List.sublist_flatten_of_mem (List.mem_map_of_mem hz))).cons h
  | conflict h form labels n l r ihl ihr =>
      rw [subtrees_conflict, List.mem_cons, List.mem_append] at hx
      rw [handles_conflict]
      rcases hx with rfl | hx | hx
      · rw [handles_conflict]
      · exact ((ihl hx).trans (List.sublist_append_left _ _)).cons h
      · exact ((ihr hx).trans (List.sublist_append_right _ _)).cons h

theorem sound_of_mem_subtrees (ho : o.sound = true) (hx : x ∈ o.subtrees) : x.sound = true := by
  induction o with
  | node h c n cs ih =>
      rw [subtrees_node, List.mem_cons, List.mem_flatMap] at hx
      rcases hx with rfl | ⟨z, hz, hx⟩
      · exact ho
      · exact ih z hz (((sound_node ..).mp ho).2 z hz) hx
  | conflict h form labels n l r ihl ihr =>
      rw [subtrees_conflict, List.mem_cons, List.mem_append] at hx
      obtain ⟨-, hl, hr⟩ := (sound_conflict ..).mp ho
      rcases hx with rfl | hx | hx
      · exact ho
      · exact ihl hl hx
      · exact ihr hr hx

theorem map_handle_rivals_subset (o : Outline) : o.rivals.map handle ⊆ o.handles := by
  rw [← map_handle_subtrees]
  exact List.map_subset _ o.rivals_subset

theorem map_handle_children_subset (o : Outline) : o.children.map handle ⊆ o.handles := by
  cases o with
  | node h c n cs =>
      rw [handles_node]
      exact List.Subset.trans (map_handle_subset cs) (List.subset_cons_self _ _)
  | conflict => exact List.nil_subset _

theorem Over.not_together {look : Handle → Option Node} {parent : Option Handle}
    (ho : o.Holds look parent) (hd : o.handles.Nodup) (h : o.Over a b) : ¬ o.Together a b := by
  obtain ⟨l, r, hc, ha, hb⟩ := h
  rintro ⟨l', r', hc', ha', hb'⟩
  obtain ⟨k, labels, n, p, hm, -, -, hr⟩ := ho.hasConflict hc
  obtain ⟨k', labels', n', p', -, -, -, hr'⟩ := ho.hasConflict hc'
  obtain ⟨-, rfl, rfl⟩ := ho.conflict_unique hd hc hc' (Or.inr (hr.handle_eq_of_child hr' ha ha'))
  have hdk := hd.sublist (sublist_handles_of_mem_subtrees hm)
  rw [handles_conflict] at hdk
  obtain ⟨-, -, hdis⟩ := List.nodup_append'.mp (List.nodup_cons.mp hdk).2
  exact hdis (l.map_handle_rivals_subset hb) (r.map_handle_children_subset hb')

/-- What a side of a conflict keeps. Some of its children may be gone from it. -/
structure Gains (gone : Handle → Prop) (x y : Outline) : Prop where
  handle : y.handle = x.handle
  declared : x.declared ⊆ y.declared
  rivals : x.rivals.map Outline.handle ⊆ y.rivals.map Outline.handle
  children : ∀ a ∈ x.children.map Outline.handle, ¬ gone a → a ∈ y.children.map Outline.handle

theorem Gains.refl (gone : Handle → Prop) (x : Outline) : x.Gains gone x :=
  ⟨rfl, List.Subset.refl _, List.Subset.refl _, fun _ ha _ => ha⟩

/-- Every conflict is still there, and its sides have gained at most. -/
def Widens (gone : Handle → Prop) (x y : Outline) : Prop :=
  ∀ form l r, x.HasConflict form l r →
    ∃ l' r', y.HasConflict form l' r' ∧ l.Gains gone l' ∧ r.Gains (fun _ => False) r'

theorem Widens.of_subset (gone : Handle → Prop)
    (h : ∀ form l r, x.HasConflict form l r → y.HasConflict form l r) : x.Widens gone y :=
  fun form l r hc => ⟨l, r, h form l r hc, .refl _ _, .refl _ _⟩

theorem Gains.fill (h : x.Gains gone y) (fr : Frame) : (fr.fill x).Gains gone (fr.fill y) := by
  cases fr with
  | node k c n before after =>
      refine ⟨rfl, ?_, ?_, ?_⟩
      · intro a ha
        simp only [Frame.fill, declared_node, List.flatMap_append, List.flatMap_cons,
          List.mem_append] at ha ⊢
        exact ha.imp_right (Or.imp_right (Or.imp_left (@h.declared a)))
      · intro a ha
        simp only [Frame.fill, rivals_node, List.flatMap_append, List.flatMap_cons, List.map_append,
          List.mem_append] at ha ⊢
        exact ha.imp_right (Or.imp_left (@h.rivals a))
      · intro a ha _
        simpa [Frame.fill, Outline.children, h.handle] using ha
  | left k form labels n r =>
      refine ⟨rfl, h.declared, ?_, List.forall_mem_nil _⟩
      intro a ha
      simp only [Frame.fill, rivals_conflict, List.map_append, List.mem_append] at ha ⊢
      exact ha.imp_right (Or.imp_left (@h.rivals a))

theorem Widens.fill (hw : x.Widens gone y) (hg : x.Gains gone y) (fr : Frame) :
    (fr.fill x).Widens gone (fr.fill y) := by
  intro form l r hc
  cases fr with
  | node k c n before after =>
      simp only [Frame.fill, hasConflict_node, List.mem_append, List.mem_cons] at hc ⊢
      obtain ⟨z, hz | rfl | hz, hc⟩ := hc
      · exact ⟨l, r, ⟨z, Or.inl hz, hc⟩, .refl _ _, .refl _ _⟩
      · obtain ⟨l', r', hc', hl, hr⟩ := hw form l r hc
        exact ⟨l', r', ⟨y, Or.inr (Or.inl rfl), hc'⟩, hl, hr⟩
      · exact ⟨l, r, ⟨z, Or.inr (Or.inr hz), hc⟩, .refl _ _, .refl _ _⟩
  | left k form' labels n r' =>
      simp only [Frame.fill, hasConflict_conflict] at hc ⊢
      rcases hc with ⟨rfl, rfl, rfl⟩ | hc | hc
      · exact ⟨y, r', Or.inl ⟨rfl, rfl, rfl⟩, hg, .refl _ _⟩
      · obtain ⟨l', r'', hc', hl, hr⟩ := hw form l r hc
        exact ⟨l', r'', Or.inr (Or.inl hc'), hl, hr⟩
      · exact ⟨l, r, Or.inr (Or.inr hc), .refl _ _, .refl _ _⟩

theorem Widens.plug (hw : x.Widens gone y) (hg : x.Gains gone y) (path : List Frame) :
    (plug path x).Widens gone (plug path y) := by
  induction path generalizing x y with
  | nil => exact hw
  | cons fr path ih => exact ih (hw.fill hg fr) (hg.fill fr)

theorem Widens.disputes (hw : x.Widens gone y) (h : x.Disputes a b) : y.Disputes a b := by
  obtain ⟨l, r, hc, ha, hb⟩ := h
  obtain ⟨l', r', hc', hl, hr⟩ := hw _ l r hc
  exact ⟨l', r', hc', hl.declared ha, hr.children b hb fun h => h⟩

theorem Widens.flanks (hw : x.Widens gone y) (hg : ¬ gone a) (h : x.Flanks a b) : y.Flanks a b := by
  obtain ⟨l, r, hc, ha, hb⟩ := h
  obtain ⟨l', r', hc', hl, hr⟩ := hw _ l r hc
  exact ⟨l', r', hc', hl.children a ha hg, hr.children b hb fun h => h⟩

theorem Widens.heads (hw : x.Widens gone y) (h : x.Heads a b) : y.Heads a b := by
  obtain ⟨l, r, hc, rfl, rfl⟩ := h
  obtain ⟨l', r', hc', hl, hr⟩ := hw _ l r hc
  exact ⟨l', r', hc', hl.handle, hr.handle⟩

/-- Every conflict of declarations is part of one that has all its rivals on the right side, and on
the left side all the rivals that it had there. -/
def Gathers (x y : Outline) : Prop :=
  ∀ l r, x.HasConflict .declarations l r → ∃ l' r', y.HasConflict .declarations l' r' ∧
    l.rivals.map handle ⊆ l'.rivals.map handle ∧ r.children.map handle ⊆ r'.children.map handle

theorem Gathers.trans (h : x.Gathers y) (h' : y.Gathers z) : x.Gathers z := by
  intro l r hc
  obtain ⟨l₁, r₁, hc₁, hl₁, hr₁⟩ := h l r hc
  obtain ⟨l₂, r₂, hc₂, hl₂, hr₂⟩ := h' l₁ r₁ hc₁
  exact ⟨l₂, r₂, hc₂, List.Subset.trans hl₁ hl₂, List.Subset.trans hr₁ hr₂⟩

theorem Gathers.refl (x : Outline) : x.Gathers x :=
  fun l r hc => ⟨l, r, hc, List.Subset.refl _, List.Subset.refl _⟩

theorem Widens.gathers (hw : x.Widens gone y) : x.Gathers y := by
  intro l r hc
  obtain ⟨l', r', hc', hl, hr⟩ := hw _ l r hc
  exact ⟨l', r', hc', hl.rivals, fun b hb => hr.children b hb fun h => h⟩

theorem Gathers.together (hg : x.Gathers y) (h : x.Together a b) : y.Together a b := by
  obtain ⟨l, r, hc, ha, hb⟩ := h
  obtain ⟨l', r', hc', -, hr⟩ := hg l r hc
  exact ⟨l', r', hc', hr ha, hr hb⟩

theorem Gathers.over (hg : x.Gathers y) (h : x.Over a b) : y.Over a b := by
  obtain ⟨l, r, hc, ha, hb⟩ := h
  obtain ⟨l', r', hc', hl, hr⟩ := hg l r hc
  exact ⟨l', r', hc', hr ha, hl hb⟩

def Gathered (l r : Outline) (xs : List Outline) : Prop :=
  ∃ x ∈ xs, ∃ l' r', x.HasConflict .declarations l' r' ∧
    l.rivals.map handle ⊆ l'.rivals.map handle ∧ r.children.map handle ⊆ r'.children.map handle

theorem Unites.gathers (hu : Unites x y z) : x.Gathers z ∧ y.Gathers z := by
  cases hu
  constructor
  all_goals
    intro l r hc
    simp only [hasConflict_conflict, hasConflict_node] at hc ⊢
    rcases hc with ⟨-, rfl, rfl⟩ | ⟨w, hw, hc⟩ | ⟨w, hw, hc⟩
    · refine ⟨_, _, Or.inl ⟨trivial, rfl, rfl⟩, ?_, ?_⟩
      · simp [rivals_node, List.flatMap_append]
      · simp [Outline.children]
    · exact ⟨l, r, Or.inr (Or.inl ⟨w, by simp [hw], hc⟩), List.Subset.refl _, List.Subset.refl _⟩
    · exact ⟨l, r, Or.inr (Or.inr ⟨w, by simp [hw], hc⟩), List.Subset.refl _, List.Subset.refl _⟩

theorem gathered_runs {xs : List Outline} (hs : ∀ x ∈ xs, x.sound = true)
    (h : Gathered l r xs) : Gathered l r (runs xs) := by
  refine (runs_keep hs h (M := Gathered l r) ?_).1
  rintro before after x y z hu ⟨w, hw, l', r', hc, hl, hr⟩
  have joins (hg : w.Gathers z) : Gathered l r (before ++ z :: after) := by
    obtain ⟨l₁, r₁, hc₁, hl₁, hr₁⟩ := hg l' r' hc
    exact ⟨z, by simp, l₁, r₁, hc₁, List.Subset.trans hl hl₁, List.Subset.trans hr hr₁⟩
  simp only [List.mem_append, List.mem_cons] at hw
  rcases hw with hw | rfl | rfl | hw
  · exact ⟨w, by simp [hw], l', r', hc, hl, hr⟩
  · exact joins hu.gathers.1
  · exact joins hu.gathers.2
  · exact ⟨w, by simp [hw], l', r', hc, hl, hr⟩

theorem Gathers.conflict {h : Handle} {labels : Labels} {n : Notes}
    (hl : l.Gathers l') (hr : l'.rivals.Perm l.rivals) :
    (conflict h form labels n l r).Gathers (conflict h form labels n l' r) := by
  intro l₁ r₁ hc
  simp only [hasConflict_conflict] at hc ⊢
  rcases hc with ⟨rfl, rfl, rfl⟩ | hc | hc
  · exact ⟨l', r, Or.inl ⟨rfl, rfl, rfl⟩, List.map_subset _ hr.symm.subset, List.Subset.refl _⟩
  · obtain ⟨l₂, r₂, hc₂, hs⟩ := hl l₁ r₁ hc
    exact ⟨l₂, r₂, Or.inr (Or.inl hc₂), hs⟩
  · exact ⟨l₁, r₁, Or.inr (Or.inr hc), List.Subset.refl _, List.Subset.refl _⟩

theorem gathers_coalescedWithin (depth : Nat) (hs : x.sound = true) (ht : x.tidy = true) :
    x.Gathers (x.coalescedWithin depth) := by
  induction depth generalizing x with
  | zero => exact .refl x
  | succ depth ih =>
      cases x with
      | conflict => exact .refl _
      | node h c n cs =>
          rw [sound_node] at hs
          rw [tidy_node] at ht
          have below : ∀ z ∈ runs cs, z.Gathers (z.descend (coalescedWithin depth)) := by
            intro z hz
            have hsz := sound_runs hs.2 z hz
            have htz := tidy_runs hs.2 ht z hz
            cases z with
            | node k d m ds =>
                rw [descend]
                split
                · exact ih hsz htz
                · exact .refl _
            | conflict k form labels m l r =>
                have hsides := (sound_conflict ..).mp hsz
                have htl := (tidy_conflict ..).mp htz
                have hfree := conflictFree_of_bare hsides.1.2 htl.1
                have hr := coalesces depth hsides.2.2 (tidy_of_conflictFree hfree)
                rw [descend, hr.plain hfree]
                exact (ih hsides.2.1 htl.2).conflict (coalesces depth hsides.2.1 htl.2).rivals
          intro l r hc
          rw [coalescedWithin]
          rw [hasConflict_node] at hc
          obtain ⟨x, hx, hc⟩ := hc
          obtain ⟨z, hz, l₁, r₁, hc₁, hl₁, hr₁⟩ := gathered_runs hs.2
            ⟨x, hx, l, r, hc, List.Subset.refl _, List.Subset.refl _⟩
          obtain ⟨l₂, r₂, hc₂, hl₂, hr₂⟩ := below z hz l₁ r₁ hc₁
          refine ⟨l₂, r₂, ?_, List.Subset.trans hl₁ hl₂, List.Subset.trans hr₁ hr₂⟩
          rw [hasConflict_node]
          exact ⟨_, List.mem_map_of_mem hz, hc₂⟩

end Outline

end Reconcile
