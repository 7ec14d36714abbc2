import Reconcile.Proofs.Normal.Idempotence
import Reconcile.Proofs.Normal.Roster

namespace Reconcile

open Outline

def Content.isGrouping : Content → Bool
  | .visibilityGroup _ | .group _ => true
  | _ => false

def Kind.isGrouping : Kind → Bool
  | .plain c => c.isGrouping
  | .conflict .. => false

def Content.section? (v : Option Visibility) : Content → Option Visibility
  | .visibilityGroup w => some w
  | .scope _ => none
  | _ => v

namespace Outline

mutual

/-- Methods and attributes are in a group for their visibility, and no visibility group is in another
one below the same scope; `v` is the visibility group around the outline. -/
def Sectioned (v : Option Visibility) : Outline → Prop
  | node _ c _ cs =>
      (∀ w, (Kind.plain c).visibility? = some w → v = some w) ∧
        ((Kind.plain c).isVisibilityGroup = true → v = none) ∧
        (c.isContainer = true → SectionedAll (c.section? v) cs)
  | conflict _ _ _ _ l r => l.Sectioned v ∧ r.Sectioned v

def SectionedAll (v : Option Visibility) : List Outline → Prop
  | [] => True
  | o :: os => o.Sectioned v ∧ SectionedAll v os

end

def Ungathered (_ : Bool) (c : Content) (_ : List Outline) : Prop := c.isGrouping = false

def Uncategorized (i : Bool) (c : Content) (cs : List Outline) : Prop :=
  isGroup c = false ∧ Children NoGroups i c cs

/-- A body consists of groups, none of them empty and in strict order, and a group holds what is of
its category. -/
def Categorized (_ : Bool) (c : Content) (cs : List Outline) : Prop :=
  (isGroup c = false → (∀ x ∈ cs, ∃ h k n ms, x = node h (.group k) n ms ∧ ms ≠ []) ∧
    cs.Pairwise fun x y => x.kind.category.rank < y.kind.category.rank) ∧
  ∀ k, c = .group k → ∀ x ∈ cs, x.kind.category = k

/-- A group without visibility markers is in order. -/
def Ranged (_ : Bool) (c : Content) (cs : List Outline) : Prop :=
  isGroup c = true → cs.any isMarker = false → cs.Pairwise fun x y => x.sortKey.le y.sortKey = true

variable {v : Option Visibility} {i inside : Bool} {h : Handle} {c : Content} {n : Notes} {o : Outline}
  {cs : List Outline} {g : Rule}

@[simp] theorem sectionedAll_iff (os : List Outline) :
    SectionedAll v os ↔ ∀ o ∈ os, o.Sectioned v := by
  induction os with
  | nil => simp [SectionedAll]
  | cons o os ih => simp [SectionedAll, ih]

theorem sectioned_node : (node h c n cs).Sectioned v ↔
    (∀ w, (Kind.plain c).visibility? = some w → v = some w) ∧
      ((Kind.plain c).isVisibilityGroup = true → v = none) ∧
      (c.isContainer = true → ∀ x ∈ cs, x.Sectioned (c.section? v)) := by
  rw [Sectioned, sectionedAll_iff]

theorem sectioned_leaf {l : Leaf}
    (hl : ∀ w, (Kind.plain (.leaf l)).visibility? = some w → v = some w) :
    (node h (.leaf l) n cs).Sectioned v :=
  sectioned_node.mpr ⟨hl, nofun, nofun⟩

theorem ungathered_nestSingletons (ho : o.Everywhere Ungathered inside) :
    (o.rework Pass.nestSingletons.rule inside).Everywhere Ungathered inside := by
  refine everywhere_rework ho fun i c cs hc hcs => ⟨hc, ?_⟩
  intro x hx
  rcases mem_gathered.mp hx with ⟨hx, -⟩ | ⟨-, rfl⟩
  · exact forall_map_rework hcs x hx
  · refine everywhere_node.mpr fun _ => ⟨rfl, ?_⟩
    intro y hy
    obtain ⟨z, hz, rfl⟩ := List.mem_map.mp hy
    obtain ⟨h, m, n, ks, rfl⟩ := leaf_of_isSingletonMethod (List.mem_filter.mp hz).2
    exact everywhere_leaf _ _ _ _

theorem visibility_of_suits {form : ConflictForm} (hs : form.suits o = true) :
    o.kind.visibility? = none := by
  obtain ⟨h, c, n, cs, rfl, hc⟩ := container_of_suits hs
  cases c with
  | leaf => cases hc
  | _ => rfl

/-- Where there are no groups yet, nesting puts a method or an attribute into one visibility group. -/
theorem sectioned_nestVisibilities (hs : o.sound = true) (hv : o.kind.visibility? = none)
    (ho : o.Everywhere Ungathered false) :
    (o.rework Pass.nestVisibilities.rule false).Sectioned none := by
  -- The induction goes down from a node that is neither a method nor an attribute.
  induction o with
  | node h c n cs ih =>
      rw [everywhere_node] at ho
      rw [sound_node] at hs
      have hnone : ∀ w, (Kind.plain c).visibility? = some w → (none : Option Visibility) = some w := by
        intro w hw
        have hv : (Kind.plain c).visibility? = none := hv
        rw [hv] at hw
        cases hw
      by_cases hc : c.isContainer = true
      · obtain ⟨hg, hcs⟩ := ho hc
        have hplace : c.within false = false ∧ c.section? none = none := by
          cases c with
          | visibilityGroup w => cases hg
          | _ => exact ⟨rfl, rfl⟩
        rw [rework_container hc, sectioned_node, hplace.1, hplace.2]
        rw [hplace.1] at hcs
        refine ⟨hnone, fun _ => rfl, fun _ x hx => ?_⟩
        rcases mem_sections hx with ⟨hx, hx'⟩ | ⟨w, ms, rfl, hms⟩
        · obtain ⟨y, hy, rfl⟩ := List.mem_map.mp hx
          refine ih y hy (hs.2 y hy) ?_ (hcs y hy)
          cases hw : y.kind.visibility? with
          | none => rfl
          | some w => simpa [hasVisibility, hw] using hx' w (by cases w <;> decide)
        · rw [sectioned_node]
          refine ⟨by rintro _ ⟨⟩, fun _ => rfl, fun _ y hy => ?_⟩
          obtain ⟨-, hw⟩ := hms y hy
          obtain ⟨h, l, n, ks, rfl⟩ := leaf_of_hasVisibility hw
          refine sectioned_leaf fun w' hw' => ?_
          have hw : (node h (.leaf l) n ks).kind.visibility? = some w := by
            simpa [hasVisibility] using hw
          exact hw.symm.trans hw'
      · rw [rework, if_neg hc, sectioned_node]
        exact ⟨hnone, fun _ => rfl, fun hc' => absurd hc' hc⟩
  | conflict h form labels n l r ihl ihr =>
      rw [sound_conflict] at hs
      exact ⟨ihl hs.2.1 (visibility_of_suits hs.1.1) ho.1, ihr hs.2.2 (visibility_of_suits hs.1.2) ho.2⟩

theorem sectioned_rework
    (hg : ∀ i c cs v, (∀ x ∈ cs, x.Sectioned v) → ∀ x ∈ g i c cs, x.Sectioned v)
    (ho : o.Sectioned v) : (o.rework g inside).Sectioned v := by
  induction o generalizing v inside with
  | node h c n cs ih =>
      rw [sectioned_node] at ho
      by_cases hc : c.isContainer = true
      · rw [rework_container hc, sectioned_node]
        refine ⟨ho.1, ho.2.1, fun _ => hg _ _ _ _ ?_⟩
        intro x hx
        obtain ⟨y, hy, rfl⟩ := List.mem_map.mp hx
        exact ih y hy (ho.2.2 hc y hy)
      · rw [rework, if_neg hc, sectioned_node]
        exact ho
  | conflict h form labels n l r ihl ihr => exact ⟨ihl ho.1, ihr ho.2⟩

theorem sectioned_group (ho : o.Sectioned v) : (o.rework Pass.group.rule inside).Sectioned v := by
  refine sectioned_rework (fun i c cs v hcs => ?_) ho
  simp only [Pass.rule]
  split
  · exact hcs
  · intro x hx
    obtain ⟨k, rfl⟩ := mem_grouped hx
    refine sectioned_node.mpr ⟨by rintro _ ⟨⟩, by rintro ⟨⟩, fun _ y hy => ?_⟩
    rcases mem_members hy with hy | ⟨h, n, ks, hm, hy⟩
    · exact hcs y hy
    · exact (sectioned_node.mp (hcs _ hm)).2.2 rfl y hy

theorem sectioned_sort (ho : o.Sectioned v) : (o.rework Pass.sort.rule inside).Sectioned v :=
  sectioned_rework (fun i c cs _ hcs x hx => hcs x ((perm_sort i c cs).mem_iff.mp hx)) ho

theorem uncategorized_nestVisibilities (ho : o.Everywhere Uncategorized inside) :
    (o.rework Pass.nestVisibilities.rule inside).Everywhere Uncategorized inside := by
  refine everywhere_rework ho fun i c cs hc hcs => ?_
  have hK := children_map_rework (g := Pass.nestVisibilities.rule) hc.2
  have hcs' := forall_map_rework hcs
  cases i with
  | true => exact ⟨⟨hc.1, hK⟩, hcs'⟩
  | false =>
      refine ⟨⟨hc.1, fun x hx => ?_⟩, fun x hx => ?_⟩
      · rcases mem_sections hx with ⟨hx, -⟩ | ⟨w, ms, rfl, -⟩
        · exact hK x hx
        · exact nofun
      · rcases mem_sections hx with ⟨hx, -⟩ | ⟨w, ms, rfl, hms⟩
        · exact hcs' x hx
        · refine everywhere_node.mpr fun _ => ⟨⟨rfl, fun y hy => ?_⟩, fun y hy => ?_⟩
          · exact hK y (hms y hy).1
          · obtain ⟨h, l, n, ks, rfl⟩ := leaf_of_hasVisibility (hms y hy).2
            exact everywhere_leaf _ _ _ _

theorem category_of_members {k : Category} (hcs : Children NoGroups i c cs) :
    ∀ x ∈ members cs k, x.kind.category = k := by
  intro x hx
  rw [members_of_no_group hcs] at hx
  exact of_decide_eq_true (List.mem_filter.mp hx).2

theorem pairwise_rank_grouped (ms : Category → List Outline) :
    (grouped ms).Pairwise fun x y => x.kind.category.rank < y.kind.category.rank := by
  rw [grouped, List.pairwise_flatMap]
  constructor
  · intro k _
    split <;> simp
  · have hranks : Category.all.Pairwise fun k l => k.rank < l.rank := by decide
    refine hranks.imp fun {k l} hlt x hx y hy => ?_
    split at hx
    · cases hx
    · split at hy
      · cases hy
      · cases List.mem_singleton.mp hx
        cases List.mem_singleton.mp hy
        exact hlt

theorem ne_nil_of_grouped {ms : Category → List Outline} (ho : o ∈ grouped ms) :
    ∃ k, o = node 0 (.group k) {} (ms k) ∧ ms k ≠ [] := by
  obtain ⟨k, -, ho⟩ := List.mem_flatMap.mp ho
  split at ho
  · cases ho
  · next hne => exact ⟨k, List.mem_singleton.mp ho, by simpa using hne⟩

theorem categorized_group (ho : o.Everywhere Uncategorized inside) :
    (o.rework Pass.group.rule inside).Everywhere Categorized inside := by
  refine everywhere_rework ho fun i c cs hc hcs => ?_
  have hK := children_map_rework (g := Pass.group.rule) hc.2
  have hcs' := forall_map_rework hcs
  have hrule : Pass.group.rule i c (cs.map (rework Pass.group.rule i)) =
      grouped (members (cs.map (rework Pass.group.rule i))) := if_neg (by simp [hc.1])
  rw [hrule]
  refine ⟨⟨fun _ => ⟨fun x hx => ?_, pairwise_rank_grouped _⟩, ?_⟩, fun x hx => ?_⟩
  · obtain ⟨k, rfl, hne⟩ := ne_nil_of_grouped hx
    exact ⟨0, k, {}, _, rfl, hne⟩
  · rintro k rfl
    cases hc.1
  · obtain ⟨k, rfl⟩ := mem_grouped hx
    refine everywhere_node.mpr fun _ => ⟨⟨nofun, ?_⟩, everywhere_members hcs'⟩
    intro k' hk'
    cases hk'
    exact category_of_members hK

theorem ranked_of_strict (hcs : ∀ x ∈ cs, ∃ h k n ms, x = node h (.group k) n ms ∧ ms ≠ [])
    (hr : cs.Pairwise fun x y => x.kind.category.rank < y.kind.category.rank) :
    Pass.sort.rule i c cs = cs := by
  have hm : cs.any isMarker = false := by
    rw [List.any_eq_false]
    intro x hx
    obtain ⟨h, k, n, ms, rfl, -⟩ := hcs x hx
    simp [isMarker, kind]
  rw [sort_of_no_marker hm]
  refine sortBy_of_pairwise (hr.imp_of_mem ?_)
  intro x y hx hy hlt
  obtain ⟨h, k, n, ms, rfl, -⟩ := hcs x hx
  obtain ⟨h', k', n', ms', rfl, -⟩ := hcs y hy
  rw [SortKey.le_iff]
  exact Or.inl (Or.inl hlt)

theorem categorized_sort (ho : o.Everywhere Categorized inside) :
    (o.rework Pass.sort.rule inside).Everywhere Categorized inside := by
  refine everywhere_rework ho fun i c cs hc hcs => ?_
  have hcs' := forall_map_rework hcs
  have hp := perm_sort i c (cs.map (rework Pass.sort.rule i))
  refine ⟨⟨fun hg => ?_, fun k hk x hx => ?_⟩, fun x hx => hcs' x (hp.mem_iff.mp hx)⟩
  · have hgroups : ∀ x ∈ cs.map (rework Pass.sort.rule i),
        ∃ h k n ms, x = node h (.group k) n ms ∧ ms ≠ [] := by
      intro x hx
      obtain ⟨y, hy, rfl⟩ := List.mem_map.mp hx
      obtain ⟨h, k, n, ms, rfl, hne⟩ := (hc.1 hg).1 y hy
      refine ⟨h, k, n, _, rework_container rfl h n ms, fun hnil => hne ?_⟩
      have hms := (perm_sort ((Content.group k).within i) (.group k)
        (ms.map (rework Pass.sort.rule ((Content.group k).within i)))).symm
      rw [hnil, List.perm_nil] at hms
      exact List.map_eq_nil_iff.mp hms
    have hranks : (cs.map (rework Pass.sort.rule i)).Pairwise
        fun x y => x.kind.category.rank < y.kind.category.rank := by
      rw [List.pairwise_map]
      simpa using (hc.1 hg).2
    rw [ranked_of_strict hgroups hranks]
    exact ⟨hgroups, hranks⟩
  · obtain ⟨y, hy, rfl⟩ := List.mem_map.mp (hp.mem_iff.mp hx)
    rw [kind_rework]
    exact hc.2 k hk y hy

theorem ranged_sort (o : Outline) :
    (o.rework Pass.sort.rule inside).Everywhere Ranged inside := by
  apply everywhere_reworked
  intro i c cs hcs
  have hcs' := forall_map_rework hcs
  have hp := perm_sort i c (cs.map (rework Pass.sort.rule i))
  refine ⟨fun _ hm => ?_, fun x hx => hcs' x (hp.mem_iff.mp hx)⟩
  rw [sort_of_no_marker (hp.any_eq.symm.trans hm)]
  exact pairwise_sorted _

theorem uncategorized_of_ungathered (ho : o.Everywhere Ungathered inside) :
    o.Everywhere Uncategorized inside := by
  induction o generalizing inside with
  | node h c n cs ih =>
      rw [everywhere_node] at ho ⊢
      intro hc
      obtain ⟨hg, hcs⟩ := ho hc
      refine ⟨⟨?_, fun x hx k hk => ?_⟩, fun x hx => ih x hx (hcs x hx)⟩
      · cases c with
        | group => cases hg
        | _ => rfl
      · have hx := hcs x hx
        cases x with
        | conflict => cases hk
        | node h' c' n' cs' =>
            cases hk
            cases (everywhere_node.mp hx rfl).1
  | conflict h form labels n l r ihl ihr => exact ⟨ihl ho.1, ihr ho.2⟩

/-- What the passes in their canonical order bring about. -/
structure Canonical (o : Outline) : Prop where
  plain : o.Everywhere (Children NoSingletons) false
  sectioned : o.Sectioned none
  categorized : o.Everywhere Categorized false
  ranged : o.Everywhere Ranged false

theorem canonical_of_ungathered (hs : o.sound = true) (hk : o.kind.visibility? = none)
    (ho : o.Everywhere Ungathered false) :
    (Pass.canonical.foldl (fun o p => p.reworked o) o).Canonical := by
  have h₁ := ungathered_nestSingletons ho
  have hs₁ : (Pass.nestSingletons.reworked o).sound = true :=
    sound_rework (Pass.sound_rule .nestSingletons) hs
  have h₂ := sectioned_nestVisibilities hs₁ (by rw [Pass.reworked, kind_rework, hk]) h₁
  have h₃ := categorized_group (uncategorized_nestVisibilities (uncategorized_of_ungathered h₁))
  exact {
    plain := (children_canonical o).imp fun _ _ _ h x hx => (h x hx).1
    sectioned := sectioned_sort (sectioned_group h₂)
    categorized := categorized_sort h₃
    ranged := ranged_sort _ }

end Outline

end Reconcile
