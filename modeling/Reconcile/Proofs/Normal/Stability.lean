import Reconcile.Proofs.Normal.Rules
import Reconcile.Proofs.Normal.Sorting

namespace Reconcile

open Outline

variable {K : Bool → Kind → Prop} {i inside : Bool} {c : Content} {o : Outline} {cs : List Outline}

def NoSingletons (_ : Bool) (k : Kind) : Prop := k.isSingletonMethod = false

def InSections (i : Bool) (k : Kind) : Prop := i = true ∨ k.visibility? = none

theorem forall_map_rework {g : Rule} {P : Bool → Content → List Outline → Prop}
    (h : ∀ x ∈ cs, (x.rework g i).Everywhere P i) : ∀ x ∈ cs.map (rework g i), x.Everywhere P i := by
  intro x hx
  obtain ⟨y, hy, rfl⟩ := List.mem_map.mp hx
  exact h y hy

theorem noSingletons_nestSingletons (o : Outline) :
    (o.rework Pass.nestSingletons.rule inside).Everywhere (Children NoSingletons) inside := by
  apply everywhere_reworked
  intro i c cs hcs
  have cleared {x : Outline} (hx : x.isSingletonMethod = true) :
      NoSingletons false x.clearSingleton.kind ∧
        x.clearSingleton.Everywhere (Children NoSingletons) false := by
    obtain ⟨h, m, n, ks, rfl⟩ := leaf_of_isSingletonMethod hx
    exact ⟨rfl, everywhere_leaf _ _ _ _⟩
  constructor
  · intro x hx
    rcases mem_gathered.mp hx with ⟨-, hx⟩ | ⟨-, rfl⟩
    · exact hx
    · rfl
  · intro x hx
    rcases mem_gathered.mp hx with ⟨hx, -⟩ | ⟨-, rfl⟩
    · exact forall_map_rework hcs x hx
    · refine everywhere_node.mpr fun _ => ⟨?_, ?_⟩
      · intro y hy
        obtain ⟨z, hz, rfl⟩ := List.mem_map.mp hy
        exact (cleared (List.mem_filter.mp hz).2).1
      · intro y hy
        obtain ⟨z, hz, rfl⟩ := List.mem_map.mp hy
        exact (cleared (List.mem_filter.mp hz).2).2

theorem nestSingletons_of_noSingletons (ho : o.Everywhere (Children NoSingletons) inside) :
    o.rework Pass.nestSingletons.rule inside = o :=
  rework_of_everywhere (ho.imp fun _ _ _ hcs => gathered_of_none hcs)

theorem inSections_nestVisibilities (hgroup : ∀ v, K false (.plain (.visibilityGroup v)))
    (hmono : ∀ k, K false k → K true k) (ho : o.Everywhere (Children K) inside) :
    (o.rework Pass.nestVisibilities.rule inside).Everywhere
      (Children fun i k => K i k ∧ InSections i k) inside := by
  refine everywhere_rework ho fun i c cs hK hcs => ?_
  have hK' := children_map_rework (g := Pass.nestVisibilities.rule) hK
  have hcs' := forall_map_rework hcs
  cases i with
  | true => exact ⟨fun x hx => ⟨hK' x hx, Or.inl rfl⟩, hcs'⟩
  | false =>
      constructor
      · intro x hx
        rcases mem_sections hx with ⟨hx, hv⟩ | ⟨v, ms, rfl, -⟩
        · refine ⟨hK' x hx, Or.inr ?_⟩
          cases hx : x.kind.visibility? with
          | none => rfl
          | some v => simpa [hasVisibility, hx] using hv v (by cases v <;> decide)
        · exact ⟨hgroup v, Or.inr rfl⟩
      · intro x hx
        rcases mem_sections hx with ⟨hx, -⟩ | ⟨v, ms, rfl, hms⟩
        · exact hcs' x hx
        · refine everywhere_node.mpr fun _ => ⟨?_, ?_⟩
          · intro y hy
            exact ⟨hmono _ (hK' y (hms y hy).1), Or.inl rfl⟩
          · intro y hy
            obtain ⟨h, l, n, ks, rfl⟩ := leaf_of_hasVisibility (hms y hy).2
            exact everywhere_leaf _ _ _ _

theorem nestVisibilities_of_inSections (ho : o.Everywhere (Children InSections) inside) :
    o.rework Pass.nestVisibilities.rule inside = o := by
  refine rework_of_everywhere (ho.imp fun i c cs hcs => ?_)
  cases i with
  | true => rfl
  | false =>
      have keep (v : Visibility) : gathered (.visibilityGroup v) (hasVisibility v) id cs = cs := by
        apply gathered_of_none
        intro x hx
        rcases hcs x hx with hx | hx
        · cases hx
        · simp [hasVisibility, hx]
      simp only [Pass.rule, Visibility.all, List.foldl_cons, List.foldl_nil, keep]
      rfl

theorem everywhere_members {P : Bool → Content → List Outline → Prop} {k : Category}
    (hcs : ∀ x ∈ cs, x.Everywhere P i) : ∀ x ∈ members cs k, x.Everywhere P i := by
  intro x hx
  rcases mem_members hx with hx | ⟨h, n, ks, hm, hx⟩
  · exact hcs x hx
  · exact (everywhere_node.mp (hcs _ hm) rfl).2 x hx

theorem children_group (hgroup : ∀ i k, K i (.plain (.group k)))
    (ho : o.Everywhere (Children K) inside) :
    (o.rework Pass.group.rule inside).Everywhere (Children K) inside := by
  refine everywhere_rework ho fun i c cs hK hcs => ?_
  have hK' := children_map_rework (g := Pass.group.rule) hK
  have hcs' := forall_map_rework hcs
  simp only [Pass.rule]
  split
  · exact ⟨hK', hcs'⟩
  · constructor
    · intro x hx
      obtain ⟨k, rfl⟩ := mem_grouped hx
      exact hgroup i k
    · intro x hx
      obtain ⟨k, rfl⟩ := mem_grouped hx
      refine everywhere_node.mpr fun _ => ⟨?_, everywhere_members hcs'⟩
      intro y hy
      rcases mem_members hy with hy | ⟨h, n, ks, hm, hy⟩
      · exact hK' y hy
      · exact (everywhere_node.mp (hcs' _ hm) rfl).1 y hy

/-- A rule has nothing more to do. -/
def Settled (p : Pass) : Bool → Content → List Outline → Prop := fun i c cs => p.rule i c cs = cs

theorem settled_group (o : Outline) :
    (o.rework Pass.group.rule inside).Everywhere (Settled .group) inside := by
  apply everywhere_reworked
  intro i c cs hcs
  have hcs' := forall_map_rework hcs
  simp only [Settled, Pass.rule]
  split
  · exact ⟨rfl, hcs'⟩
  · refine ⟨by rw [members_grouped], ?_⟩
    intro x hx
    obtain ⟨k, rfl⟩ := mem_grouped hx
    exact everywhere_node.mpr fun _ => ⟨rfl, everywhere_members hcs'⟩

theorem pairwise_sorted (cs : List Outline) :
    (sorted cs).Pairwise fun x y => x.sortKey.le y.sortKey = true :=
  pairwise_sortBy (fun x y => SortKey.le_total x.sortKey y.sortKey)
    (fun x y z => SortKey.le_trans x.sortKey y.sortKey z.sortKey) cs

theorem filter_sorted (cs : List Outline) (k : SortKey) :
    (sorted cs).filter (·.sortKey = k) = cs.filter (·.sortKey = k) := by
  apply filter_sortBy
  rw [List.pairwise_filter]
  refine List.pairwise_of_forall fun x y hx hy => ?_
  rw [of_decide_eq_true hx, of_decide_eq_true hy]
  exact k.le_refl

theorem sort_of_marker (h : cs.any isMarker = true) : Pass.sort.rule i c cs = cs := if_pos h

theorem sort_of_no_marker (h : cs.any isMarker = false) : Pass.sort.rule i c cs = sorted cs :=
  if_neg (by simp [h])

theorem perm_sort (i : Bool) (c : Content) (cs : List Outline) : (Pass.sort.rule i c cs).Perm cs := by
  cases h : cs.any isMarker with
  | true => rw [sort_of_marker h]
  | false =>
      rw [sort_of_no_marker h]
      exact perm_sortBy _ _

theorem children_sort (ho : o.Everywhere (Children K) inside) :
    (o.rework Pass.sort.rule inside).Everywhere (Children K) inside := by
  refine everywhere_rework ho fun i c cs hK hcs => ?_
  have hK' := children_map_rework (g := Pass.sort.rule) hK
  have hcs' := forall_map_rework hcs
  exact ⟨fun x hx => hK' x ((perm_sort _ _ _).mem_iff.mp hx),
    fun x hx => hcs' x ((perm_sort _ _ _).mem_iff.mp hx)⟩

theorem sort_sort (i : Bool) (c : Content) (cs : List Outline) :
    Pass.sort.rule i c (Pass.sort.rule i c cs) = Pass.sort.rule i c cs := by
  cases h : cs.any isMarker with
  | true => rw [sort_of_marker h, sort_of_marker h]
  | false =>
      have hperm := perm_sort i c cs
      rw [sort_of_no_marker h] at hperm ⊢
      rw [sort_of_no_marker (hperm.any_eq.trans h)]
      exact sortBy_of_pairwise (pairwise_sorted cs)

theorem settled_sort (o : Outline) :
    (o.rework Pass.sort.rule inside).Everywhere (Settled .sort) inside := by
  apply everywhere_reworked
  intro i c cs hcs
  have hcs' := forall_map_rework hcs
  exact ⟨sort_sort _ _ _, fun x hx => hcs' x ((perm_sort _ _ _).mem_iff.mp hx)⟩

theorem sort_grouped (i : Bool) (c : Content) (ms : Category → List Outline) :
    Pass.sort.rule i c (grouped ms) = grouped ms := by
  have hmarker : (grouped ms).any isMarker = false := by
    rw [List.any_eq_false]
    intro x hx
    obtain ⟨k, rfl⟩ := mem_grouped hx
    simp [isMarker, kind]
  rw [sort_of_no_marker hmarker]
  apply sortBy_of_pairwise
  rw [grouped, List.pairwise_flatMap]
  constructor
  · intro k _
    split <;> simp
  · have hranks : Category.all.Pairwise fun k l => k.rank < l.rank := by decide
    refine hranks.imp fun {k l} hlt => ?_
    intro x hx y hy
    split at hx
    · cases hx
    · split at hy
      · cases hy
      · cases List.mem_singleton.mp hx
        cases List.mem_singleton.mp hy
        rw [SortKey.le_iff]
        exact Or.inl (Or.inl hlt)

theorem grouped_map_sort (i : Bool) (ms : Category → List Outline) :
    (grouped ms).map (rework Pass.sort.rule i) =
      grouped fun k => Pass.sort.rule i (.group k) ((ms k).map (rework Pass.sort.rule i)) := by
  rw [grouped, grouped, List.map_flatMap]
  refine List.flatMap_congr fun k _ => ?_
  rw [(perm_sort i (.group k) ((ms k).map (rework Pass.sort.rule i))).isEmpty_eq, List.isEmpty_map]
  split
  · rfl
  · rw [List.map_singleton, rework_container rfl]
    rfl

theorem group_sort (ho : o.Everywhere (Settled .group) inside) :
    (o.rework Pass.sort.rule inside).Everywhere (Settled .group) inside := by
  refine everywhere_rework ho fun i c cs hset hcs => ?_
  have hcs' := forall_map_rework hcs
  refine ⟨?_, fun x hx => hcs' x ((perm_sort _ _ _).mem_iff.mp hx)⟩
  simp only [Settled] at hset ⊢
  cases hc : isGroup c with
  | true => simp only [Pass.rule, hc, if_true]
  | false =>
      simp only [Pass.rule, hc, Bool.false_eq_true, if_false] at hset
      rw [← hset, grouped_map_sort, sort_grouped]
      simp only [Pass.rule, hc, Bool.false_eq_true, if_false, members_grouped]

theorem Pass.reworked_idempotent (p : Pass) (o : Outline) :
    p.reworked (p.reworked o) = p.reworked o := by
  cases p with
  | nestSingletons => exact nestSingletons_of_noSingletons (noSingletons_nestSingletons o)
  | nestVisibilities =>
      have ho : o.Everywhere (Children fun _ _ => True) false :=
        everywhere_of_forall fun _ _ _ _ _ => trivial
      have h := inSections_nestVisibilities (fun _ => trivial) (fun _ _ => trivial) ho
      exact nestVisibilities_of_inSections (h.imp fun _ _ _ h x hx => (h x hx).2)
  | group => exact rework_of_everywhere (settled_group o)
  | sort => exact rework_of_everywhere (settled_sort o)

theorem children_canonical (o : Outline) : (Pass.canonical.foldl (fun o p => p.reworked o) o).Everywhere
    (Children fun i k => NoSingletons i k ∧ InSections i k) false := by
  have h := inSections_nestVisibilities (fun _ => rfl) (fun _ h => h)
    (@noSingletons_nestSingletons false o)
  exact children_sort (children_group (fun i k => ⟨rfl, Or.inr rfl⟩) h)

/-- What all passes in their canonical order make of an outline is left alone by each of them. -/
theorem reworked_canonical (p : Pass) (o : Outline) :
    p.reworked (Pass.canonical.foldl (fun o p => p.reworked o) o) =
      Pass.canonical.foldl (fun o p => p.reworked o) o := by
  have h := children_canonical o
  simp only [Pass.canonical, List.foldl_cons, List.foldl_nil] at h ⊢
  cases p with
  | nestSingletons => exact nestSingletons_of_noSingletons (h.imp fun _ _ _ h x hx => (h x hx).1)
  | nestVisibilities => exact nestVisibilities_of_inSections (h.imp fun _ _ _ h x hx => (h x hx).2)
  | group => exact rework_of_everywhere (group_sort (settled_group _))
  | sort => exact rework_of_everywhere (settled_sort _)

end Reconcile
