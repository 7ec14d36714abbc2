import Reconcile.Proofs.Normal.Idempotence
import Reconcile.Proofs.Normal.Permuting

namespace Reconcile

open Outline

/-- The list `cs'` is the list `cs` in ascending order of keys, and what has the same key keeps its
order. -/
structure StablySorted (key : Handle → SortKey) (cs cs' : List Handle) : Prop where
  perm : cs'.Perm cs
  ascending : cs'.Pairwise fun a b => (key a).place ≤ (key b).place
  stable : ∀ k, cs'.filter (key · = k) = cs.filter (key · = k)

variable {key : Handle → SortKey} {f f' : Forest} {parent : Option Handle} {i : Bool} {o : Outline}
  {cs : List Outline} {h : Handle} {n : Node}

theorem pairwise_le {cs : List Handle} (hcs : cs.Pairwise fun a b => (key a).place ≤ (key b).place) :
    cs.Pairwise fun a b => (key a).le (key b) = true :=
  hcs.imp fun hab => (SortKey.le_iff_place _ _).mpr hab

theorem StablySorted.eq_self {cs cs' : List Handle} (hs : StablySorted key cs cs')
    (hcs : cs.Pairwise fun a b => (key a).place ≤ (key b).place) : cs' = cs :=
  eq_of_pairwise_of_filter (pairwise_le hs.ascending) (pairwise_le hcs) hs.stable

theorem stablySorted_sorted (hkey : ∀ o ∈ cs, key o.handle = o.sortKey) :
    StablySorted key (cs.map handle) ((sorted cs).map handle) := by
  have hperm : (sorted cs).Perm cs := perm_sortBy _ cs
  refine ⟨hperm.map handle, ?_, fun k => ?_⟩
  · rw [List.pairwise_map]
    refine (pairwise_sorted cs).imp_of_mem ?_
    intro x y hx hy hle
    rw [hkey x (hperm.mem_iff.mp hx), hkey y (hperm.mem_iff.mp hy)]
    exact (SortKey.le_iff_place _ _).mp hle
  · have hfilter {os : List Outline} (hos : os ⊆ cs) :
        os.filter ((fun h => decide (key h = k)) ∘ handle) = os.filter (·.sortKey = k) :=
      List.filter_congr fun o ho => by rw [Function.comp_apply, hkey o (hos ho)]
    rw [List.filter_map, List.filter_map, hfilter hperm.subset, hfilter (List.Subset.refl cs),
      filter_sorted]

@[simp] theorem isMarker_rework {g : Rule} (o : Outline) : (o.rework g i).isMarker = o.isMarker := by
  rw [Outline.isMarker, kind_rework, Outline.isMarker]

@[simp] theorem sortKey_rework {g : Rule} (o : Outline) : (o.rework g i).sortKey = o.sortKey := by
  cases o with
  | node h c n cs =>
      rw [rework]
      split <;> rfl
  | conflict h form labels n l r =>
      cases form with
      | headers =>
          rw [rework_conflict, Outline.sortKey, kind_rework]
          rfl
      | declarations => rfl

theorem stablySorted_nil : StablySorted key [] [] := ⟨.refl [], .nil, fun _ => rfl⟩

def Forest.HasMarker (f : Forest) (n : Node) : Prop := ∃ c ∈ n.children, f.isMarker c = .ok true

instance (f : Forest) (n : Node) : Decidable (f.HasMarker n) :=
  inferInstanceAs (Decidable (∃ c ∈ n.children, f.isMarker c = .ok true))

theorem hasMarker_iff (hn : n.children = cs.map handle) (hcs : ∀ o ∈ cs, ∃ p, o.Holds f.look p) :
    f.HasMarker n ↔ cs.any isMarker = true := by
  rw [Forest.HasMarker, hn, List.any_eq_true]
  simp only [List.mem_map, exists_exists_and_eq_and]
  refine exists_congr fun o => and_congr_right fun ho => ?_
  obtain ⟨p, hp⟩ := hcs o ho
  rw [isMarker_of_holds hp, Except.ok.injEq]

/-- What sorting makes of the children of a node that can be reached. -/
def Forest.Sorts (f : Forest) (key : Handle → SortKey) (n : Node) (cs : List Handle) : Prop :=
  (f.HasMarker n → cs = n.children) ∧ (¬f.HasMarker n → StablySorted key n.children cs)

theorem sorts_rule (c : Content) (hn : n.children = cs.map handle)
    (hcs : ∀ o ∈ cs, ∃ p, o.Holds f.look p)
    (hkey : ∀ o ∈ cs, f.sortKey o.handle = .ok (key o.handle)) :
    f.Sorts key n ((Pass.sort.rule i c (cs.map (rework Pass.sort.rule i))).map handle) := by
  have hmarker := hasMarker_iff hn hcs
  have hany : (cs.map (rework Pass.sort.rule i)).any isMarker = cs.any isMarker := by
    simp only [List.any_map, Function.comp_def, isMarker_rework]
  have hhandles (os : List Outline) :
      (os.map (rework Pass.sort.rule i)).map handle = os.map handle := by
    simp only [List.map_map, Function.comp_def, handle_rework]
  constructor
  · intro hm
    rw [sort_of_marker (hany.trans (hmarker.mp hm)), hhandles, hn]
  · intro hm
    have hnone : cs.any isMarker = false := by simpa [hmarker] using hm
    have hsorted : sorted (cs.map (rework Pass.sort.rule i)) =
        (sorted cs).map (rework Pass.sort.rule i) :=
      (map_sortBy (fun a b => by rw [sortKey_rework, sortKey_rework]) cs).symm
    rw [sort_of_no_marker (hany.trans hnone), hsorted, hhandles, hn]
    refine stablySorted_sorted fun o ho => ?_
    obtain ⟨p, hp⟩ := hcs o ho
    have hok := hkey o ho
    rw [sortKey_of_holds hp, Except.ok.injEq] at hok
    exact hok.symm

theorem sorts_of_holds (hs : o.sound = true) (ho : o.Holds f.look parent)
    (ho' : (o.rework Pass.sort.rule i).Holds f'.look parent)
    (hkey : ∀ h ∈ o.handles, f.sortKey h = .ok (key h)) (hh : h ∈ o.handles) :
    ∃ n cs, f.look h = some n ∧ f'.look h = some { n with children := cs } ∧ f.Sorts key n cs := by
  have childless {n : Node} (hn : n.children = []) : f.Sorts key n [] :=
    ⟨fun _ => hn.symm, fun _ => by rw [hn]; exact stablySorted_nil⟩
  induction o generalizing parent i with
  | node k c m cs ih =>
      rw [sound_node] at hs
      rw [holds_node] at ho
      have hbelow : ∀ o ∈ cs, ∀ x ∈ o.handles, f.sortKey x = .ok (key x) := by
        intro o hm x hx
        exact hkey x (handles_node .. ▸ List.mem_cons_of_mem _ (List.mem_flatMap.mpr ⟨o, hm, hx⟩))
      by_cases hc : c.isContainer = true
      · rw [rework_container hc, holds_node] at ho'
        rw [handles_node, List.mem_cons, List.mem_flatMap] at hh
        rcases hh with rfl | ⟨o, hm, hh⟩
        · exact ⟨_, _, ho.1, ho'.1, sorts_rule c rfl (fun o hm => ⟨_, ho.2 o hm⟩)
            fun o hm => hbelow o hm _ o.handle_mem_handles⟩
        · have hm' : o.rework Pass.sort.rule (c.within i) ∈
              Pass.sort.rule (c.within i) c (cs.map (rework Pass.sort.rule (c.within i))) :=
            (perm_sort _ _ _).mem_iff.mpr (List.mem_map_of_mem hm)
          exact ih o hm (hs.2 o hm) (ho.2 o hm) (ho'.2 _ hm') (hbelow o hm) hh
      · -- no rule is applied to a leaf, which is in order because it has no children
        have hnil : cs = [] := hs.1.resolve_left hc
        subst hnil
        rw [rework, if_neg hc, holds_node] at ho'
        cases List.mem_singleton.mp (by simpa using hh)
        exact ⟨_, _, ho.1, ho'.1, childless rfl⟩
  | conflict k form labels m l r ihl ihr =>
      rw [sound_conflict] at hs
      rw [holds_conflict] at ho
      rw [rework_conflict, holds_conflict, handle_rework, handle_rework] at ho'
      rw [handles_conflict, List.forall_mem_cons, List.forall_mem_append] at hkey
      rw [handles_conflict, List.mem_cons, List.mem_append] at hh
      rcases hh with rfl | hh | hh
      · exact ⟨_, _, ho.1, ho'.1, childless rfl⟩
      · exact ihl hs.2.1 ho.2.1 ho'.2.1 hkey.2.1 hh
      · exact ihr hs.2.2 ho.2.2 ho'.2.2 hkey.2.2 hh

namespace Forest

theorem exists_sortKeys (ho : o.Holds f.look parent) :
    ∃ key : Handle → SortKey, ∀ h ∈ o.handles, f.sortKey h = .ok (key h) := by
  have hkeys : ∀ h, ∃ k, h ∈ o.handles → f.sortKey h = .ok k := by
    intro h
    by_cases hh : h ∈ o.handles
    · rw [← map_handle_subtrees] at hh
      obtain ⟨x, hx, rfl⟩ := List.mem_map.mp hh
      obtain ⟨p, hp⟩ := ho.of_mem_subtrees hx
      exact ⟨x.sortKey, fun _ => sortKey_of_holds hp⟩
    · exact ⟨⟨(0, 0), none⟩, fun hm => absurd hm hh⟩
  exact Classical.skolem.mp hkeys

theorem size_sortIn {h : Handle} {cs : List Handle} (he : sortIn f h cs = .ok f') :
    f'.size = f.size := by
  obtain ⟨markers, -, he⟩ := exists_of_bind_eq_ok he
  split at he
  · cases he
    rfl
  · obtain ⟨keyed, -, he⟩ := exists_of_bind_eq_ok he
    obtain ⟨n, -, he⟩ := exists_of_bind_eq_ok he
    cases he
    exact size_modify _ _ _

theorem size_sort (he : Pass.sort.run f = .ok f') : f'.size = f.size := by
  refine upwardWithin_keeps (P := fun g => g.size = f.size) ?_ he rfl
  intro g h cs g' hg hsize
  rw [size_sortIn hg, hsize]

/-- Sorting succeeds, gives out no handle and leaves every node as it is but for the order of its
children. They are in ascending order of rank and name afterwards, those with the same rank and name
in their old order. Where there is a marker among them they stay as they were, and so does everything
that cannot be reached. A tree that is in order already is left as it is. -/
theorem sort_stable {f : Forest} (hf : f.WellFormed) :
    ∃ f' o key, Pass.sort.run f = .ok f' ∧ f.outline root = .ok o ∧
      (∀ h ∈ o.handles, f.sortKey h = .ok (key h)) ∧ f'.size = f.size ∧
      (∀ h, h ∉ o.handles → f'.look h = f.look h) ∧
      (∀ h ∈ o.handles, ∃ n cs, f.look h = some n ∧ f'.look h = some { n with children := cs } ∧
        (f.HasMarker n → cs = n.children) ∧ (¬f.HasMarker n → StablySorted key n.children cs)) ∧
      ((∀ h ∈ o.handles, ∀ n, f.look h = some n → ¬f.HasMarker n →
        n.children.Pairwise fun a b => (key a).place ≤ (key b).place) → f' = f) := by
  obtain ⟨o, ho⟩ := hf.exists_shows
  obtain ⟨key, hkey⟩ := exists_sortKeys ho.holds
  obtain ⟨f', o', he, ho', hpatch, hrename⟩ :=
    ho.upwardFrom (Nat.zero_le _) (tracks_sort 0 id) (Pass.sound_rule .sort)
  have hrework : o' = o.rework Pass.sort.rule false := by
    have hid (o : Outline) : o.rename id = o := rename_eq_self fun _ _ => rfl
    rwa [hid, hid] at hrename
  have hsize := size_sort he
  have hframe : ∀ h, h ∉ o.handles → f'.look h = f.look h := by
    intro h hh
    exact hpatch.look_eq hsize (by simpa using hh)
  have hsorts (h : Handle) (hh : h ∈ o.handles) : ∃ n cs, f.look h = some n ∧
      f'.look h = some { n with children := cs } ∧ f.Sorts key n cs :=
    sorts_of_holds ho.sound ho.holds (hrework ▸ ho'.holds) hkey hh
  refine ⟨f', o, key, he, ho.outline, hkey, hsize, hframe, hsorts, fun hordered => ?_⟩
  refine eq_of_look (funext fun h => ?_)
  by_cases hh : h ∈ o.handles
  · obtain ⟨n, cs, hn, hn', hmarked, hsorted⟩ := hsorts h hh
    have hcs : cs = n.children := by
      by_cases hm : f.HasMarker n
      · exact hmarked hm
      · exact (hsorted hm).eq_self (hordered h hh n hn hm)
    rw [hn', hn, hcs]
  · exact hframe h hh

def jumbled : Forest :=
  ⟨#[{ kind := .plain .tree, children := [5, 2, 1, 4, 3] },
    { kind := .plain (.leaf (.method { name := "m" })), parent := some 0 },
    { kind := .plain (.leaf (.constant "B" "1")), parent := some 0 },
    { kind := .conflict .headers ⟨"left", "right"⟩ 6 7, parent := some 0 },
    { kind := .plain (.leaf (.constant "B" "2")), parent := some 0 },
    { kind := .plain (.scope (.moduleNamed "C")), parent := some 0, children := [8, 9, 10] },
    { kind := .plain (.scope (.classNamed "A" none)), parent := some 3 },
    { kind := .plain (.scope (.classNamed "A" (some "S"))), parent := some 3 },
    { kind := .plain (.leaf (.method { name := "z" })), parent := some 5 },
    { kind := .plain (.leaf (.marker .priv)), parent := some 5 },
    { kind := .plain (.leaf (.method { name := "a" })), parent := some 5 }]⟩

theorem sort_stable_jumbled : jumbled.WellFormed ∧ ∃ f' key cs, Pass.sort.run jumbled = .ok f' ∧
    f'.look 0 = some { kind := .plain .tree, children := cs } ∧ StablySorted key [5, 2, 1, 4, 3] cs ∧
    f'.look 5 = jumbled.look 5 := by
  have hf : jumbled.WellFormed := by decide
  obtain ⟨f', o, key, he, ho, -, -, -, hsorts, -⟩ := sort_stable hf
  cases ho
  obtain ⟨n, cs, hn, hn', -, hsorted⟩ := hsorts 0 (by decide)
  obtain ⟨m, ds, hm, hm', hmarked, -⟩ := hsorts 5 (by decide)
  cases hn
  cases hm
  have hds := hmarked (by decide)
  subst hds
  exact ⟨hf, f', key, cs, he, hn', hsorted (by decide), hm'⟩

example : (Pass.sort.run jumbled >>= fun f => f.children 0) = .ok [1, 3, 2, 4, 5] := by decide

end Forest

end Reconcile
