import Mathlib.Data.List.Forall2
import Reconcile.Forest.Visit
import Reconcile.Proofs.Forest.Patch

namespace Reconcile

/-- The nodes above a place with their kinds, the nearest first. -/
def Spine (look : Handle → Option Node) : Option Handle → List (Handle × Kind) → Prop
  | parent, [] => parent = none
  | parent, (h, kind) :: above =>
      parent = some h ∧ ∃ n, look h = some n ∧ n.kind = kind ∧ Spine look n.parent above

theorem Spine.congr {look look' : Handle → Option Node} {parent : Option Handle}
    {above : List (Handle × Kind)} (hs : Spine look parent above)
    (h : ∀ k ∈ above.map (·.1), look' k = look k) : Spine look' parent above := by
  induction above generalizing parent with
  | nil => exact hs
  | cons x above ih =>
      obtain ⟨hp, n, hn, hk, hs⟩ := hs
      refine ⟨hp, n, by rw [h _ (by simp), hn], hk, ih hs fun k hk => h k ?_⟩
      rw [List.map_cons]
      exact List.mem_cons_of_mem _ hk

theorem Spine.known {look : Handle → Option Node} {parent : Option Handle}
    {above : List (Handle × Kind)} (hs : Spine look parent above) {k : Handle}
    (hk : k ∈ above.map (·.1)) : ∃ n, look k = some n := by
  induction above generalizing parent with
  | nil => cases hk
  | cons x above ih =>
      obtain ⟨-, n, hn, -, hs⟩ := hs
      rcases List.mem_cons.mp hk with rfl | hk
      · exact ⟨n, hn⟩
      · exact ih hs hk

structure Place (f : Forest) (above : List (Handle × Kind)) (parent : Option Handle)
    (xs : List Outline) : Prop where
  spine : Spine f.look parent above
  distinct : (above.map (·.1)).Nodup
  apart : (above.map (·.1)).Disjoint (xs.flatMap Outline.handles)
  holds : ∀ x ∈ xs, x.Holds f.look parent
  nodup : (xs.flatMap Outline.handles).Nodup

namespace Place

variable {f f' : Forest} {above : List (Handle × Kind)} {parent : Option Handle} {x : Outline}
  {xs ys cs : List Outline} {h : Handle}

theorem whole (hx : x.Holds f.look none) (hd : x.handles.Nodup) : Place f [] none [x] where
  spine := rfl
  distinct := .nil
  apart := List.disjoint_nil_left _
  holds := by simpa using hx
  nodup := by simpa using hd

theorem patched (hp : Place f above parent xs) (hpatch : Patches f f' parent xs ys) :
    Place f' above parent ys := by
  have hlt {k : Handle} (hk : k ∈ above.map (·.1)) : k < f.size := by
    obtain ⟨n, hn⟩ := hp.spine.known hk
    exact Forest.look_lt hn
  refine ⟨hp.spine.congr fun k hk => hpatch.frame k (hlt hk) (hp.apart hk), hp.distinct, ?_,
    hpatch.holds, hpatch.nodup⟩
  intro k hk hy
  rcases hpatch.fresh k hy with hy | hy
  · exact hp.apart hk hy
  · exact Nat.not_lt.mpr hy (hlt hk)

theorem head (hp : Place f above parent (x :: xs)) : Place f above parent [x] where
  spine := hp.spine
  distinct := hp.distinct
  apart := fun k hk hm => hp.apart hk (by
    rw [List.flatMap_cons, List.mem_append]
    exact Or.inl (by simpa using hm))
  holds := by simpa using hp.holds x (by simp)
  nodup := by
    have hd := hp.nodup
    rw [List.flatMap_cons, List.nodup_append'] at hd
    simpa using hd.1

theorem tail (hp : Place f above parent (x :: xs)) (hpatch : Patches f f' parent [x] ys) :
    Place f' above parent xs := by
  have hd := hp.nodup
  rw [List.flatMap_cons, List.nodup_append'] at hd
  refine ⟨(hp.head.patched hpatch).spine, hp.distinct, ?_, ?_, hd.2.1⟩
  · intro k hk hm
    exact hp.apart hk (by rw [List.flatMap_cons, List.mem_append]; exact Or.inr hm)
  · intro y hy
    refine hpatch.bystander (hp.holds y (by simp [hy])) ?_
    intro k hk hm
    rw [List.flatMap_singleton] at hm
    exact hd.2.2 hm (Outline.handles_subset hy hk)

theorem children {c : Content} {n : Notes} (hp : Place f above parent [.node h c n cs]) :
    Place f ((h, .plain c) :: above) (some h) cs := by
  have hh := (Outline.holds_node ..).mp (hp.holds _ (List.mem_singleton_self _))
  have hd := hp.nodup
  rw [List.flatMap_singleton, Outline.handles_node, List.nodup_cons] at hd
  refine ⟨⟨rfl, _, hh.1, rfl, hp.spine⟩, ?_, ?_, hh.2, hd.2⟩
  · exact List.nodup_cons.mpr ⟨fun hm => hp.apart hm (by simp), hp.distinct⟩
  rw [List.map_cons, List.disjoint_cons_left]
  refine ⟨hd.1, fun k hk hm => hp.apart hk ?_⟩
  rw [List.flatMap_singleton, Outline.handles_node]
  exact List.mem_cons_of_mem _ hm

theorem sides {form : ConflictForm} {labels : Labels} {n : Notes} {l r : Outline}
    (hp : Place f above parent [.conflict h form labels n l r]) :
    Place f ((h, .conflict form labels l.handle r.handle) :: above) (some h) [l, r] := by
  have hh := (Outline.holds_conflict ..).mp (hp.holds _ (List.mem_singleton_self _))
  have hd := hp.nodup
  rw [List.flatMap_singleton, Outline.handles_conflict, List.nodup_cons] at hd
  refine ⟨⟨rfl, _, hh.1, rfl, hp.spine⟩, ?_, ?_, by simpa using hh.2, by simpa using hd.2⟩
  · exact List.nodup_cons.mpr ⟨fun hm => hp.apart hm (by simp), hp.distinct⟩
  rw [List.map_cons, List.disjoint_cons_left]
  refine ⟨by simpa using hd.1, fun k hk hm => hp.apart hk ?_⟩
  rw [List.flatMap_singleton, Outline.handles_conflict]
  exact List.mem_cons_of_mem _ (by simpa using hm)

theorem cons_patches (hp : Place f above parent (x :: xs)) {f'' : Forest} {y : Outline}
    (hx : Patches f f' parent [x] [y]) (hxs : Patches f' f'' parent xs ys) :
    Patches f f'' parent (x :: xs) (y :: ys) :=
  hx.append hxs (fun z hz => hp.holds z (by simp [hz])) hp.nodup

end Place

/-- How an outline changes when the containers that it opens do. -/
inductive Descends (R : Outline → Outline → Prop) : Outline → Outline → Prop
  | leaf (h : Handle) (l : Leaf) (n : Notes) (cs : List Outline) :
      Descends R (.node h (.leaf l) n cs) (.node h (.leaf l) n cs)
  | container (h : Handle) (c : Content) (n : Notes) (cs : List Outline) (y : Outline)
      (hc : c.isContainer = true) (hy : R (.node h c n cs) y) : Descends R (.node h c n cs) y
  | conflict (h : Handle) (form : ConflictForm) (labels : Labels) (n : Notes) (l r l' r' : Outline)
      (hl : R l l') (hr : R r r') :
      Descends R (.conflict h form labels n l r) (.conflict h form labels n l' r')

/-- What a single visit does to the outline of a container. -/
def Visits (visit : Forest → Handle → Except Fault Forest) (above : List (Handle × Kind))
    (R : Outline → Outline → Prop) (x : Outline) : Prop :=
  ∀ ⦃f : Forest⦄ ⦃parent : Option Handle⦄, Place f above parent [x] →
    ∃ f' y, visit f x.handle = .ok f' ∧ Patches f f' parent [x] [y] ∧ R x y

/-- What a single visit does in forests that have at least `N` nodes. A visit only ever adds nodes, so
that what is new in one of them has a handle from `N` on. -/
def VisitsFrom (N : Nat) (visit : Forest → Handle → Except Fault Forest)
    (above : List (Handle × Kind)) (R : Outline → Outline → Prop) (x : Outline) : Prop :=
  ∀ ⦃f : Forest⦄ ⦃parent : Option Handle⦄, N ≤ f.size → Place f above parent [x] →
    ∃ f' y, visit f x.handle = .ok f' ∧ Patches f f' parent [x] [y] ∧ R x y

/-- The containers that an outline opens, with the nodes above each of them. -/
def Outline.opens (above : List (Handle × Kind)) : Outline → List (List (Handle × Kind) × Outline)
  | node h c n cs => if c.isContainer then [(above, node h c n cs)] else []
  | conflict h form labels _ l r =>
      [((h, .conflict form labels l.handle r.handle) :: above, l),
        ((h, .conflict form labels l.handle r.handle) :: above, r)]

theorem Outline.container_of_suits {form : ConflictForm} {o : Outline} (ho : form.suits o = true) :
    ∃ h c n cs, o = node h c n cs ∧ c.isContainer = true := by
  cases o with
  | node h c n cs =>
      refine ⟨h, c, n, cs, rfl, ?_⟩
      cases form <;> cases c <;> first | rfl | cases ho
  | conflict => cases ho

theorem Outline.opens_of_sound {above : List (Handle × Kind)} {x : Outline} (hs : x.sound = true)
    {p : List (Handle × Kind) × Outline} (hp : p ∈ x.opens above) :
    ∃ h c n cs, p.2 = node h c n cs ∧ c.isContainer = true ∧ p.2.sound = true ∧
      p.2.handles.length ≤ x.handles.length := by
  cases x with
  | node h c n cs =>
      rw [opens] at hp
      split at hp
      · next hc =>
          cases List.mem_singleton.mp hp
          exact ⟨h, c, n, cs, rfl, hc, hs, Nat.le_refl _⟩
      · cases hp
  | conflict k form labels m l r =>
      rw [sound_conflict] at hs
      rw [handles_conflict, List.length_cons, List.length_append]
      rcases List.mem_pair.mp hp with rfl | rfl
      · obtain ⟨h, c, n, cs, hl, hc⟩ := container_of_suits hs.1.1
        exact ⟨h, c, n, cs, hl, hc, hs.2.1, show l.handles.length ≤ _ by omega⟩
      · obtain ⟨h, c, n, cs, hr, hc⟩ := container_of_suits hs.1.2
        exact ⟨h, c, n, cs, hr, hc, hs.2.2, show r.handles.length ≤ _ by omega⟩

theorem Outline.opened_below {h : Handle} {c : Content} {n : Notes} {cs : List Outline} {x : Outline}
    {depth : Nat} {above : List (Handle × Kind)} {p : List (Handle × Kind) × Outline}
    (hs : ∀ x ∈ cs, x.sound = true) (hd : (node h c n cs).handles.length ≤ depth + 1) (hx : x ∈ cs)
    (hp : p ∈ x.opens above) :
    ∃ h' c' n' cs', p.2 = node h' c' n' cs' ∧ c'.isContainer = true ∧ (node h' c' n' cs').sound = true ∧
      (node h' c' n' cs').handles.length ≤ depth := by
  obtain ⟨h', c', n', cs', hnode, hc', hsound, hle⟩ := opens_of_sound (hs x hx) hp
  have hx' := length_handles_le hx
  rw [handles_node, List.length_cons] at hd
  rw [hnode] at hsound hle
  exact ⟨h', c', n', cs', hnode, hc', hsound, by omega⟩

theorem Outline.Holds.length_le_visitDepth {f : Forest} {o : Outline} {parent : Option Handle}
    (ho : o.Holds f.look parent) (hd : o.handles.Nodup) : o.handles.length ≤ f.visitDepth := by
  have hlen := ho.length_le hd
  rw [Forest.visitDepth]
  omega

namespace Forest

variable {f : Forest} {above : List (Handle × Kind)} {parent : Option Handle} {x : Outline}
  {xs : List Outline} {visit : Forest → Handle → Except Fault Forest} {R : Outline → Outline → Prop}
  {N : Nat}

theorem visitAt_patchesFrom (hN : N ≤ f.size) (hp : Place f above parent [x])
    (hv : ∀ p ∈ x.opens above, VisitsFrom N visit p.1 R p.2) :
    ∃ f' y, (do (← f.containersAt x.handle).foldlM visit f) = .ok f' ∧
      Patches f f' parent [x] [y] ∧ Descends R x y := by
  cases x with
  | node h c n cs =>
      have hh := (Outline.holds_node ..).mp (hp.holds _ (List.mem_singleton_self _))
      simp only [containersAt, Outline.handle_node, kind_of_look hh.1, bind, Except.bind]
      cases hc : c.isContainer with
      | false =>
          cases c with
          | leaf l => exact ⟨f, _, rfl, .refl hp.holds hp.nodup, .leaf h l n cs⟩
          | tree | scope | visibilityGroup | group => cases hc
      | true =>
          obtain ⟨f', y, he, hpatch, hy⟩ :=
            hv (above, .node h c n cs) (by simp [Outline.opens, hc]) hN hp
          refine ⟨f', y, ?_, hpatch, .container h c n cs y hc hy⟩
          simp only [if_true, pure, Except.pure, List.foldlM_cons, List.foldlM_nil]
          rw [show visit f h = .ok f' from he]
          rfl
  | conflict h form labels n l r =>
      have hh := (Outline.holds_conflict ..).mp (hp.holds _ (List.mem_singleton_self _))
      simp only [containersAt, Outline.handle_conflict, kind_of_look hh.1, bind, Except.bind]
      have hsides := hp.sides
      obtain ⟨f₁, l', he₁, hl, hl'⟩ := hv (_, l) (by simp [Outline.opens]) hN hsides.head
      obtain ⟨f₂, r', he₂, hr, hr'⟩ :=
        hv (_, r) (by simp [Outline.opens]) (Nat.le_trans hN hl.size) (hsides.tail hl)
      refine ⟨f₂, _, ?_, (hsides.cons_patches hl hr).conflict ?_ ?_,
        .conflict h form labels n l r l' r' hl' hr'⟩
      · simp only [pure, Except.pure, List.foldlM_cons, List.foldlM_nil, he₁, bind, Except.bind]
        rw [he₂]
      · exact hp.holds _ (List.mem_singleton_self _)
      · simpa using hp.nodup

theorem visitEach_patchesFrom (hN : N ≤ f.size) (hp : Place f above parent xs)
    (hv : ∀ x ∈ xs, ∀ p ∈ x.opens above, VisitsFrom N visit p.1 R p.2) :
    ∃ f' ys, visitEach visit f (xs.map Outline.handle) = .ok f' ∧ Patches f f' parent xs ys ∧
      List.Forall₂ (Descends R) xs ys := by
  induction xs generalizing f with
  | nil => exact ⟨f, [], rfl, .refl hp.holds hp.nodup, .nil⟩
  | cons x xs ih =>
      obtain ⟨f₁, y, he₁, hx, hy⟩ := visitAt_patchesFrom hN hp.head (hv x (by simp))
      obtain ⟨f₂, ys, he₂, hxs, hys⟩ :=
        ih (Nat.le_trans hN hx.size) (hp.tail hx) fun z hz => hv z (by simp [hz])
      refine ⟨f₂, y :: ys, ?_, hp.cons_patches hx hxs, .cons hy hys⟩
      rw [visitEach] at he₂ ⊢
      rw [List.map_cons, List.foldlM_cons, he₁]
      exact he₂

theorem visitAt_patches (hp : Place f above parent [x])
    (hv : ∀ p ∈ x.opens above, Visits visit p.1 R p.2) :
    ∃ f' y, (do (← f.containersAt x.handle).foldlM visit f) = .ok f' ∧
      Patches f f' parent [x] [y] ∧ Descends R x y :=
  visitAt_patchesFrom (Nat.zero_le _) hp fun p hop _ _ _ => @hv p hop _ _

theorem visitEach_patches (hp : Place f above parent xs)
    (hv : ∀ x ∈ xs, ∀ p ∈ x.opens above, Visits visit p.1 R p.2) :
    ∃ f' ys, visitEach visit f (xs.map Outline.handle) = .ok f' ∧ Patches f f' parent xs ys ∧
      List.Forall₂ (Descends R) xs ys :=
  visitEach_patchesFrom (Nat.zero_le _) hp fun x hx p hop _ _ _ => @hv x hx p hop _ _

end Forest

end Reconcile
