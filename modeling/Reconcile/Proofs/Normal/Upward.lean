import Reconcile.Proofs.Forest.Visiting
import Reconcile.Proofs.Forest.WellFormed
import Reconcile.Proofs.Normal.Rework
import Reconcile.Proofs.Sequencing

namespace Reconcile

open Forest

def insideOf (above : List (Handle × Kind)) : Bool :=
  (above.takeWhile fun x => !x.2.isScope).any fun x => x.2.isVisibilityGroup

theorem insideOf_plain (h : Handle) (c : Content) (above : List (Handle × Kind)) :
    insideOf ((h, .plain c) :: above) = c.within (insideOf above) := by
  cases c <;> rfl

theorem insideOf_of_opens {above : List (Handle × Kind)} {x : Outline}
    {p : List (Handle × Kind) × Outline} (hp : p ∈ x.opens above) : insideOf p.1 = insideOf above := by
  cases x with
  | node h c n cs =>
      rw [Outline.opens] at hp
      split at hp
      · cases List.mem_singleton.mp hp
        rfl
      · cases hp
  | conflict h form labels n l r =>
      rcases List.mem_pair.mp hp with rfl | rfl
      · rfl
      · rfl

variable {f : Forest} {above : List (Handle × Kind)} {parent : Option Handle} {h : Handle}
  {c : Content} {n : Notes} {cs : List Outline}

theorem Spine.kinds (hs : Spine f.look parent above) : f.kinds (above.map (·.1)) = .ok above := by
  induction above generalizing parent with
  | nil => rfl
  | cons x above ih =>
      obtain ⟨-, m, hm, hk, hs⟩ := hs
      have htail := ih hs
      rw [Forest.kinds] at htail ⊢
      rw [List.map_cons, List.mapM_cons, htail, kind_of_look hm, hk]
      rfl

theorem Spine.ancestorsWithin (hs : Spine f.look parent above) {m : Node} (hm : f.look h = some m)
    (hp : m.parent = parent) {length : Nat} (hl : above.length < length) :
    f.ancestorsWithin length h = .ok (above.map (·.1)) := by
  induction above generalizing parent h m length with
  | nil =>
      obtain ⟨length, rfl⟩ : ∃ l, length = l + 1 := ⟨length - 1, by omega⟩
      have hs : parent = none := hs
      simp only [Forest.ancestorsWithin, get_of_look hm, bind, Except.bind, hp, hs]
      rfl
  | cons x above ih =>
      rw [List.length_cons] at hl
      obtain ⟨length, rfl⟩ : ∃ l, length = l + 1 := ⟨length - 1, by omega⟩
      obtain ⟨hparent, m', hm', -, hs⟩ := hs
      have hup := ih hs hm' rfl (show above.length < length by omega)
      simp only [Forest.ancestorsWithin, get_of_look hm, bind, Except.bind, hp, hparent, hup]
      rfl

theorem Place.inVisibilityGroup (hp : Place f above parent [.node h c n cs]) :
    f.inVisibilityGroup h = .ok (c.within (insideOf above)) := by
  have hh := ((Outline.holds_node ..).mp (hp.holds _ (List.mem_singleton_self _))).1
  have hlen : above.length < f.size := by
    have hd : (h :: above.map (·.1)).Nodup := hp.children.distinct
    have hsub : h :: above.map (·.1) ⊆ List.range f.size := by
      intro k hk
      obtain ⟨m, hm⟩ := hp.children.spine.known hk
      exact List.mem_range.mpr (look_lt hm)
    have hle := (List.subperm_of_subset hd hsub).length_le
    rw [List.length_cons, List.length_map, List.length_range] at hle
    exact hle
  have hanc : f.ancestors h = .ok (above.map (·.1)) := hp.spine.ancestorsWithin hh rfl hlen
  have hkinds : f.kinds (h :: above.map (·.1)) = .ok ((h, .plain c) :: above) :=
    hp.children.spine.kinds
  simp only [Forest.inVisibilityGroup, hanc, hkinds, bind, Except.bind]
  rw [← insideOf_plain h]
  rfl

/-- A change to one container does what a rule says. -/
def Follows (change : Change) (g : Rule) : Prop :=
  ∀ ⦃f : Forest⦄ ⦃above : List (Handle × Kind)⦄ ⦃parent : Option Handle⦄ ⦃h : Handle⦄ ⦃c : Content⦄
    ⦃n : Notes⦄ ⦃cs : List Outline⦄, Place f above parent [.node h c n cs] → c.isContainer = true →
    ∃ f' cs', change f h (cs.map Outline.handle) = .ok f' ∧
      Patches f f' parent [.node h c n cs] [.node h c n cs'] ∧
      cs'.map Outline.forget = g (c.within (insideOf above)) c (cs.map Outline.forget)

/-- A change to one container does what a rule says, in forests that have at least `N` nodes. What
handles the nodes have is seen through `φ`, under which all handles from `N` on are to be alike. -/
def Tracks (N : Nat) (φ : Handle → Handle) (change : Change) (g : Rule) : Prop :=
  ∀ ⦃f : Forest⦄ ⦃above : List (Handle × Kind)⦄ ⦃parent : Option Handle⦄ ⦃h : Handle⦄ ⦃c : Content⦄
    ⦃n : Notes⦄ ⦃cs : List Outline⦄, N ≤ f.size → Place f above parent [.node h c n cs] →
    c.isContainer = true →
    ∃ f' cs', change f h (cs.map Outline.handle) = .ok f' ∧
      Patches f f' parent [.node h c n cs] [.node h c n cs'] ∧
      cs'.map (Outline.rename φ) = g (c.within (insideOf above)) c (cs.map (Outline.rename φ))

variable {N : Nat} {φ : Handle → Handle}

theorem Tracks.follows {change : Change} {g : Rule} (hg : Tracks 0 (fun _ => 0) change g) :
    Follows change g :=
  fun f _ _ _ _ _ _ hp hc => hg (Nat.zero_le f.size) hp hc

theorem Follows.tracks {change : Change} {g : Rule} (hg : Follows change g) :
    Tracks 0 (fun _ => 0) change g :=
  fun _ _ _ _ _ _ _ _ hp hc => hg hp hc

theorem map_rename_of_descends {g : Rule} {i : Bool} {ys : List Outline}
    (h : List.Forall₂ (Descends fun x y => y.rename φ = (x.rename φ).rework g i) cs ys) :
    ys.map (Outline.rename φ) = (cs.map (Outline.rename φ)).map (Outline.rework g i) := by
  induction h with
  | nil => rfl
  | cons hx _ ih =>
      rw [List.map_cons, List.map_cons, List.map_cons, ih]
      congr 1
      cases hx with
      | leaf => simp [Outline.rework_leaf]
      | container h c n cs y hc hy => exact hy
      | conflict h form labels n l r l' r' hl hr => simp [Outline.rework_conflict, hl, hr]

theorem upward_visitsFrom {change : Change} {g : Rule} (hg : Tracks N φ change g) (depth : Nat)
    (above : List (Handle × Kind)) (hc : c.isContainer = true)
    (hs : (Outline.node h c n cs).sound = true)
    (hd : (Outline.node h c n cs).handles.length ≤ depth) :
    VisitsFrom N (upwardWithin change depth) above
      (fun x y => y.rename φ = (x.rename φ).rework g (insideOf above)) (.node h c n cs) := by
  induction depth generalizing above h c n cs with
  | zero => simp at hd
  | succ depth ih =>
      intro f parent hN hp
      rw [Outline.sound_node] at hs
      have ho := hp.holds _ (List.mem_singleton_self _)
      have hv : ∀ x ∈ cs, ∀ p ∈ x.opens ((h, .plain c) :: above), VisitsFrom N
          (upwardWithin change depth) p.1
          (fun x y => y.rename φ = (x.rename φ).rework g (c.within (insideOf above))) p.2 := by
        intro x hx p hop
        obtain ⟨h', c', n', cs', hnode, hc', hsound, hle⟩ := Outline.opened_below hs.2 hd hx hop
        rw [hnode, ← insideOf_plain h, ← insideOf_of_opens hop]
        exact ih p.1 hc' hsound hle
      obtain ⟨f₁, ys, he₁, hpatch₁, hys⟩ := visitEach_patchesFrom hN hp.children hv
      have hnode := hpatch₁.node ho (by simpa using hp.nodup)
      obtain ⟨f₂, cs', he₂, hpatch₂, hcs'⟩ :=
        hg (Nat.le_trans hN hpatch₁.size) (hp.patched hnode) hc
      refine ⟨f₂, .node h c n cs', ?_, hnode.trans hpatch₂, ?_⟩
      · have hh := ((Outline.holds_node ..).mp ho).1
        rw [hpatch₁.handles] at he₂
        simp only [upwardWithin, Outline.handle_node, children_of_look hh, he₁, bind, Except.bind]
        exact he₂
      · change (Outline.node h c n cs').rename φ = _
        rw [Outline.rename_node, Outline.rename_node, Outline.rework_container hc, hcs',
          map_rename_of_descends hys]

theorem upward_visits {change : Change} {g : Rule} (hg : Follows change g) (depth : Nat)
    (above : List (Handle × Kind)) (hc : c.isContainer = true)
    (hs : (Outline.node h c n cs).sound = true)
    (hd : (Outline.node h c n cs).handles.length ≤ depth) :
    Visits (upwardWithin change depth) above
      (fun x y => y.forget = x.forget.rework g (insideOf above)) (.node h c n cs) :=
  fun f _ hp => upward_visitsFrom hg.tracks depth above hc hs hd (Nat.zero_le f.size) hp

namespace Forest

theorem upwardWithin_keeps {change : Change} {P : Forest → Prop}
    (hc : ∀ f h cs f', change f h cs = .ok f' → P f → P f') {depth : Nat} {f f' : Forest} {h : Handle}
    (he : upwardWithin change depth f h = .ok f') (hf : P f) : P f' := by
  induction depth generalizing f f' h with
  | zero => cases he
  | succ depth ih =>
      obtain ⟨children, -, he⟩ := exists_of_bind_eq_ok he
      obtain ⟨f₁, hbelow, he⟩ := exists_of_bind_eq_ok he
      refine hc _ _ _ _ he (foldlM_keeps ?_ hbelow hf)
      intro g child g' hchild hg
      obtain ⟨containers, -, hchild⟩ := exists_of_bind_eq_ok hchild
      exact foldlM_keeps (fun _ _ _ hv => ih hv) hchild hg

variable {o : Outline}

theorem Shows.upwardFrom {change : Change} {g : Rule} (hf : f.Shows o) (hN : N ≤ f.size)
    (hg : Tracks N φ change g)
    (hsound : ∀ i c cs, (∀ x ∈ cs, x.sound = true) → ∀ x ∈ g i c cs, x.sound = true) :
    ∃ f' o', f.upward change = .ok f' ∧ f'.Shows o' ∧ Patches f f' none [o] [o'] ∧
      o'.rename φ = (o.rename φ).rework g false := by
  obtain ⟨holds, nodup, sound, hroot, tree⟩ := hf
  cases o with
  | conflict => cases tree
  | node h c n cs =>
      cases tree
      obtain ⟨f', y, he, hpatch, hy⟩ := upward_visitsFrom hg f.visitDepth [] rfl sound
        (holds.length_le_visitDepth nodup) hN (Place.whole holds nodup)
      obtain ⟨ho, hn, hh⟩ := hpatch.single
      refine ⟨f', y, ?_, ⟨ho, hn, ?_, hh.trans hroot, ?_⟩, hpatch, hy⟩
      · rw [Forest.upward, ← hroot]
        exact he
      · rw [← Outline.sound_rename φ, hy]
        exact Outline.sound_rework hsound ((Outline.sound_rename φ _).mpr sound)
      · have hy : y.rename φ = ((Outline.node h .tree n cs).rename φ).rework g false := hy
        rw [Outline.rename_node, Outline.rework_container rfl] at hy
        cases y with
        | conflict => cases hy
        | node h' c' n' cs' =>
            rw [Outline.rename_node, Outline.node.injEq] at hy
            exact congrArg some hy.2.1

theorem Shows.upward {change : Change} {g : Rule} (hf : f.Shows o) (hg : Follows change g)
    (hsound : ∀ i c cs, (∀ x ∈ cs, x.sound = true) → ∀ x ∈ g i c cs, x.sound = true) :
    ∃ f' o', f.upward change = .ok f' ∧ f'.Shows o' ∧ o'.forget = o.forget.rework g false := by
  obtain ⟨f', o', he, hf', -, ho'⟩ := hf.upwardFrom (Nat.zero_le _) hg.tracks hsound
  exact ⟨f', o', he, hf', ho'⟩

end Forest

end Reconcile
