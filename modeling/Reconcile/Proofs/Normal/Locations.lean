import Reconcile.Proofs.Normal.Permuting

namespace Reconcile

open Outline

namespace Outline

variable {inside : Bool} {g : Rule}

@[simp] theorem kind_unlocated (o : Outline) : o.unlocated.kind = o.kind := by
  have hhandle (x : Outline) : x.unlocated.handle = x.handle := by
    cases x with
    | node => rw [unlocated_node, handle_node, handle_node]
    | conflict => rfl
  cases o with
  | node => rw [unlocated_node, kind, kind]
  | conflict => rw [unlocated_conflict, kind, kind, hhandle, hhandle]

theorem sortKey_unlocated (o : Outline) : o.unlocated.sortKey = o.sortKey := by
  cases o with
  | node => rw [unlocated_node, sortKey, sortKey]
  | conflict h form labels n l r =>
      have hkind := kind_unlocated (conflict h form labels n l r)
      cases form with
      | headers => rw [unlocated_conflict, sortKey, sortKey, ← unlocated_conflict, hkind, kind_unlocated]
      | declarations => rw [unlocated_conflict, sortKey, sortKey, ← unlocated_conflict, hkind]

theorem map_unlocated_folder (c : Content) (ms : List Outline) :
    (folder c ms).map unlocated = folder c (ms.map unlocated) := by
  rw [folder, folder, List.isEmpty_map]
  split
  · rfl
  · rw [List.map_singleton, unlocated_node]
    rfl

theorem map_unlocated_gathered {pick : Outline → Bool} {τ : Outline → Outline}
    (hpick : ∀ x, pick x.unlocated = pick x)
    (hτ : ∀ x, pick x = true → (τ x).unlocated = τ x.unlocated) (c : Content) (cs : List Outline) :
    (gathered c pick τ cs).map unlocated = gathered c pick τ (cs.map unlocated) := by
  rw [gathered_eq, gathered_eq, List.map_append, map_unlocated_folder, map_filter_kind hpick,
    map_filter_kind fun x => by rw [hpick], List.map_map, List.map_map]
  congr 2
  exact List.map_congr_left fun x hx => hτ x (List.mem_filter.mp hx).2

theorem map_unlocated_sections (vs : List Visibility) (cs : List Outline) :
    (vs.foldl (fun cs v => gathered (.visibilityGroup v) (hasVisibility v) id cs) cs).map unlocated =
      vs.foldl (fun cs v => gathered (.visibilityGroup v) (hasVisibility v) id cs)
        (cs.map unlocated) := by
  induction vs generalizing cs with
  | nil => rfl
  | cons v vs ih =>
      have hpick (x : Outline) : x.unlocated.hasVisibility v = x.hasVisibility v := by
        rw [hasVisibility, kind_unlocated, hasVisibility]
      have hid (x : Outline) (_ : x.hasVisibility v = true) : (id x).unlocated = id x.unlocated := rfl
      rw [List.foldl_cons, List.foldl_cons, ih, map_unlocated_gathered hpick hid]

theorem released_unlocated (o : Outline) :
    released o.unlocated = (released o).map fun r => (r.1, r.2.unlocated) := by
  fun_cases released o with
  | case1 h k n ms => simp [released, Function.comp_def]
  | case2 _ hgroup =>
      have hk : ∀ k, o.unlocated.kind ≠ .plain (.group k) := by
        intro k hk
        rw [kind_unlocated] at hk
        cases o with
        | conflict => cases hk
        | node h c n cs =>
            cases hk
            exact hgroup h k n cs rfl
      rw [released_of_no_group hk, kind_unlocated, List.map_singleton]

theorem map_unlocated_grouped (ms : Category → List Outline) :
    (grouped ms).map unlocated = grouped fun k => (ms k).map unlocated := by
  rw [grouped, grouped, List.map_flatMap]
  refine List.flatMap_congr fun k _ => ?_
  rw [List.isEmpty_map]
  split
  · rfl
  · rw [List.map_singleton, unlocated_node]
    rfl

theorem members_unlocated (cs : List Outline) :
    members (cs.map unlocated) = fun k => (members cs k).map unlocated := by
  have hreleased : (cs.map unlocated).flatMap released =
      (cs.flatMap released).map fun r => (r.1, r.2.unlocated) := by
    rw [List.flatMap_map, List.map_flatMap]
    exact List.flatMap_congr fun x _ => released_unlocated x
  funext k
  rw [members, members, hreleased, List.filter_map, List.map_map, List.map_map]
  rfl

theorem map_unlocated_rule (p : Pass) (i : Bool) (c : Content) (cs : List Outline) :
    (p.rule i c cs).map unlocated = p.rule i c (cs.map unlocated) := by
  cases p with
  | nestSingletons =>
      refine map_unlocated_gathered (fun x => ?_) (fun x hx => ?_) _ cs
      · rw [isSingletonMethod, kind_unlocated, isSingletonMethod]
      · obtain ⟨h, m, n, ks, rfl⟩ := leaf_of_isSingletonMethod hx
        rw [clearSingleton, unlocated_node, unlocated_node, clearSingleton]
  | nestVisibilities =>
      cases i with
      | true => rfl
      | false => exact map_unlocated_sections Visibility.all cs
  | group =>
      simp only [Pass.rule]
      split
      · rfl
      · rw [map_unlocated_grouped, members_unlocated]
  | sort =>
      have hmarker : (cs.map unlocated).any isMarker = cs.any isMarker := by
        rw [List.any_map]
        congr 1
        funext x
        exact isMarker_of_kind (kind_unlocated x)
      simp only [Pass.rule, hmarker]
      split
      · rfl
      · exact map_sortBy (fun x y => by rw [sortKey_unlocated, sortKey_unlocated]) cs

theorem unlocated_rework (hg : ∀ i c cs, (g i c cs).map unlocated = g i c (cs.map unlocated))
    (o : Outline) : (o.rework g inside).unlocated = o.unlocated.rework g inside := by
  induction o generalizing inside with
  | node h c n cs ih =>
      cases hc : c.isContainer with
      | true =>
          rw [rework_container hc, unlocated_node, unlocated_node, rework_container hc, hg, List.map_map,
            List.map_map]
          congr 2
          exact List.map_congr_left fun x hx => ih x hx
      | false =>
          rw [rework, hc, if_neg Bool.false_ne_true, unlocated_node, rework, hc,
            if_neg Bool.false_ne_true]
  | conflict h form labels n l r ihl ihr =>
      rw [rework_conflict, unlocated_conflict, unlocated_conflict, rework_conflict, ihl, ihr]

theorem unlocated_normal (o : Outline) : o.normal.unlocated = o.unlocated.normal := by
  simp only [normal, arranged, nested, Pass.reworked, unlocated_rework (map_unlocated_rule _)]

end Outline

end Reconcile
