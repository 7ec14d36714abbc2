import Reconcile.Proofs.Normal.Arrangement

namespace Reconcile

open Outline

/-- The categories whose members are to stay in order. -/
def Category.steady : List Category := [mixins, typeMembers, classMethodMixins, fields, enumerations]

/-- Whether a pass may add a container with this content. -/
def Content.isFolder : Content → Bool
  | .scope .singleton | .visibilityGroup _ | .group _ => true
  | _ => false

def Kind.isLeafOf (k : Category) : Kind → Bool
  | plain (.leaf l) => l.category = k
  | _ => false

theorem Kind.category_of_isLeafOf {k : Category} {kind : Kind} (h : kind.isLeafOf k = true) :
    kind.category = k := by
  match kind, h with
  | .plain (.leaf l), h => exact of_decide_eq_true h

structure Standing where
  handle : Handle
  kind : Kind
  notes : Notes
  /-- The nearest node above that no pass has added. -/
  holder : Option Handle
  /-- For each steady category, its members in order. -/
  lines : List (List Handle)

namespace Outline

mutual

def line (k : Category) : Outline → List Handle
  | node h (.leaf l) _ _ => if l.category = k then [h] else []
  | node _ (.group k') _ cs => if k' = k then lineAll k cs else []
  | _ => []

def lineAll (k : Category) : List Outline → List Handle
  | [] => []
  | o :: os => o.line k ++ lineAll k os

end

def lines (cs : List Outline) : List (List Handle) := Category.steady.map fun k => cs.flatMap (line k)

mutual

/-- One line for each node, with what normalization must leave alone. Added containers have handle `0`,
which elsewhere only the root has. -/
def roster (holder : Option Handle) : Outline → List Standing
  | node h c n cs =>
      if h = 0 ∧ c.isFolder = true then rosterAll holder cs
      else ⟨h, (Kind.plain c).clearSingleton, n, holder, lines cs⟩ :: rosterAll (some h) cs
  | conflict h form labels n l r =>
      ⟨h, .conflict form labels l.handle r.handle, n, holder, lines []⟩ ::
        (l.roster (some h) ++ r.roster (some h))

def rosterAll (holder : Option Handle) : List Outline → List Standing
  | [] => []
  | o :: os => o.roster holder ++ rosterAll holder os

end

variable {k : Category} {c : Content} {i : Bool} {cs ms : List Outline} {o x : Outline} {h : Handle}
  {n : Notes} {holder : Option Handle} {pick : Outline → Bool} {τ : Outline → Outline} {g : Rule}

@[simp] theorem lineAll_eq (os : List Outline) : lineAll k os = os.flatMap (line k) := by
  induction os with
  | nil => rfl
  | cons o os ih => simp [lineAll, ih]

@[simp] theorem rosterAll_eq (os : List Outline) : rosterAll holder os = os.flatMap (roster holder) := by
  induction os with
  | nil => rfl
  | cons o os ih => simp [rosterAll, ih]

theorem roster_folder (hc : c.isFolder = true) (n : Notes) (cs : List Outline) :
    (node 0 c n cs).roster holder = cs.flatMap (roster holder) := by
  rw [roster, if_pos ⟨rfl, hc⟩, rosterAll_eq]

theorem roster_node (hn : ¬(h = 0 ∧ c.isFolder = true)) :
    (node h c n cs).roster holder =
      ⟨h, (Kind.plain c).clearSingleton, n, holder, lines cs⟩ :: cs.flatMap (roster (some h)) := by
  rw [roster, if_neg hn, rosterAll_eq]

theorem line_group (k' : Category) : (node h (.group k') n cs).line k =
    if k' = k then cs.flatMap (line k) else [] := by
  rw [line, lineAll_eq]

theorem line_of_container (hc : c.isContainer = true) (hg : isGroup c = false) :
    (node h c n cs).line k = [] := by
  cases c with
  | group => cases hg
  | leaf => cases hc
  | _ => rfl

theorem flatMap_line_gathered (hpick : ∀ x, pick x = true → x.line k = [])
    (hc : c.isContainer = true) (hg : isGroup c = false) (cs : List Outline) :
    (gathered c pick τ cs).flatMap (line k) = cs.flatMap (line k) := by
  have hfolder : (folder c ((cs.filter pick).map τ)).flatMap (line k) = [] := by
    rw [List.flatMap_eq_nil_iff]
    intro x hx
    obtain ⟨-, rfl⟩ := mem_folder hx
    exact line_of_container hc hg
  rw [gathered_eq, List.flatMap_append, hfolder, List.append_nil]
  apply flatMap_filter_of_nil
  intro x _ hx
  exact hpick x (by simpa using hx)

theorem line_of_visibility (hk : k ∈ Category.steady) (hx : x.kind.visibility? ≠ none) :
    x.line k = [] := by
  cases x with
  | conflict => rfl
  | node h c n cs =>
      cases c with
      | leaf l =>
          rw [line, if_neg]
          rintro rfl
          cases l with
          | method m =>
              cases hm : m.isInitializer with
              | _ => simp [Leaf.category, hm, Category.steady] at hk
          | _ => simp [Leaf.category, Category.steady, kind, Kind.visibility?] at hk hx
      | _ => exact absurd rfl hx

theorem line_of_isSingletonMethod (hk : k ∈ Category.steady) (hx : x.isSingletonMethod = true) :
    x.line k = [] := by
  obtain ⟨h, m, n, cs, rfl⟩ := leaf_of_isSingletonMethod hx
  exact line_of_visibility hk nofun

theorem line_of_hasVisibility {v : Visibility} (hk : k ∈ Category.steady)
    (hx : x.hasVisibility v = true) : x.line k = [] := by
  apply line_of_visibility hk
  have hv : x.kind.visibility? = some v := by simpa [hasVisibility] using hx
  simp [hv]

theorem line_of_no_group (hx : ∀ k, x.kind ≠ .plain (.group k)) :
    x.line k = if x.kind.isLeafOf k then [x.handle] else [] := by
  cases x with
  | conflict => rfl
  | node h c n cs =>
      cases c with
      | group k' => exact absurd rfl (hx k')
      | leaf l => simp [line, kind, Kind.isLeafOf]
      | _ => rfl

theorem flatMap_line_members (k : Category) (cs : List Outline) :
    (members cs k).flatMap (line k) = cs.flatMap (line k) := by
  have hown (x : Outline) :
      (((released x).filter (·.1 = k)).map (·.2)).flatMap (line k) = x.line k := by
    by_cases hx : ∀ k, x.kind ≠ .plain (.group k)
    · rw [released_of_no_group hx]
      by_cases hk : x.kind.category = k
      · simp [hk]
      · have hleaf : x.kind.isLeafOf k = false := by
          by_contra hl
          exact hk (Kind.category_of_isLeafOf (by simpa using hl))
        simp [hk, line_of_no_group hx, hleaf]
    · push Not at hx
      obtain ⟨k', hx⟩ := hx
      cases x with
      | conflict => cases hx
      | node h c n cs =>
          cases hx
          rw [line_group]
          by_cases hk : k' = k
          · simp [released, hk, List.filter_map, Function.comp_def]
          · simp [released, hk, List.filter_map, Function.comp_def]
  rw [members, List.filter_flatMap, List.map_flatMap, List.flatMap_assoc]
  exact List.flatMap_congr fun x _ => hown x

theorem sortKey_of_line (hk : k ∈ Category.steady) (hx : x.line k ≠ []) :
    x.sortKey = ⟨(k.rank, 0), none⟩ := by
  cases x with
  | conflict => exact absurd rfl hx
  | node h c n cs =>
      cases c with
      | group k' =>
          rw [line_group] at hx
          split at hx
          · next he =>
              subst he
              rfl
          · exact absurd rfl hx
      | leaf l =>
          rw [line] at hx
          split at hx
          · next he =>
              subst he
              cases l with
              | mixin | field | enumeration | typeMember => rfl
              | method m =>
                  cases hm : m.isInitializer with
                  | _ => simp [Leaf.category, hm, Category.steady] at hk
              | _ => simp [Leaf.category, Category.steady] at hk
          · exact absurd rfl hx
      | _ => exact absurd rfl hx

theorem flatMap_line_sorted (hk : k ∈ Category.steady) (cs : List Outline) :
    (sorted cs).flatMap (line k) = cs.flatMap (line k) := by
  apply flatMap_sortBy
  apply List.pairwise_of_forall_mem_list
  intro x hx y hy
  have key {z : Outline} (hz : z ∈ cs.filter fun z => !(z.line k).isEmpty) :
      z.sortKey = ⟨(k.rank, 0), none⟩ := by
    apply sortKey_of_line hk
    simpa using (List.mem_filter.mp hz).2
  rw [key hx, key hy, SortKey.le_iff]
  exact Or.inr ⟨rfl, rfl⟩

theorem flatMap_line_rule (p : Pass) (hk : k ∈ Category.steady) (i : Bool) (c : Content)
    (cs : List Outline) : (p.rule i c cs).flatMap (line k) = cs.flatMap (line k) := by
  cases p with
  | nestSingletons =>
      exact flatMap_line_gathered (fun _ => line_of_isSingletonMethod hk) rfl rfl cs
  | nestVisibilities =>
      cases i with
      | true => rfl
      | false =>
          change (Visibility.all.foldl (fun cs v => gathered (.visibilityGroup v) (hasVisibility v) id cs)
            cs).flatMap (line k) = _
          induction Visibility.all generalizing cs with
          | nil => rfl
          | cons v vs ih =>
              rw [List.foldl_cons, ih]
              exact flatMap_line_gathered (fun _ => line_of_hasVisibility hk) rfl rfl cs
  | group =>
      cases hc : isGroup c with
      | true => simp only [Pass.rule, hc, if_true]
      | false =>
          simp only [Pass.rule, hc, Bool.false_eq_true, if_false]
          rw [← flatMap_line_members, members_grouped, flatMap_line_members]
  | sort =>
      cases hm : cs.any isMarker with
      | true => rw [sort_of_marker hm]
      | false => rw [sort_of_no_marker hm, flatMap_line_sorted hk]

theorem line_rework (hg : ∀ i c cs, (g i c cs).flatMap (line k) = cs.flatMap (line k)) (o : Outline) :
    (o.rework g i).line k = o.line k := by
  induction o generalizing i with
  | conflict => rfl
  | node h c n cs ih =>
      cases c with
      | group k' =>
          rw [rework_container rfl, line_group, line_group, hg, List.flatMap_map,
            List.flatMap_congr fun x hx => ih x hx]
      | _ => rfl

theorem perm_roster_gathered (hc : c.isFolder = true)
    (hτ : ∀ x, pick x = true → (τ x).roster holder = x.roster holder) (cs : List Outline) :
    ((gathered c pick τ cs).flatMap (roster holder)).Perm (cs.flatMap (roster holder)) := by
  have hmoved : ((cs.filter pick).map τ).flatMap (roster holder) =
      (cs.filter pick).flatMap (roster holder) := by
    rw [List.flatMap_map]
    exact List.flatMap_congr fun x hx => hτ x (List.mem_filter.mp hx).2
  rw [gathered_eq, List.flatMap_append, flatMap_folder (roster_folder hc _ _), hmoved,
    ← List.flatMap_append]
  exact (List.perm_append_comm.trans (List.filter_append_perm pick cs)).flatMap_right _

theorem roster_clearSingleton (hx : x.isSingletonMethod = true) :
    x.clearSingleton.roster holder = x.roster holder := by
  obtain ⟨h, m, n, cs, rfl⟩ := leaf_of_isSingletonMethod hx
  rw [clearSingleton, roster_node (by simp [Content.isFolder]), roster_node (by simp [Content.isFolder])]
  rfl

theorem perm_roster_grouped (hcs : ∀ x ∈ cs, ∀ k, x.kind ≠ .plain (.group k)) :
    ((grouped (members cs)).flatMap (roster holder)).Perm (cs.flatMap (roster holder)) := by
  have hparts := perm_flatMap_filter (fun x : Outline => x.kind.category)
    (by decide : Category.all.Nodup) fun x (_ : x ∈ cs) => mem_all _
  rw [flatMap_grouped fun k ms => roster_folder rfl {} ms,
    List.flatMap_congr fun k _ => by rw [members_of_no_group hcs k], ← List.flatMap_assoc]
  exact hparts.flatMap_right _

theorem perm_roster_rule (p : Pass) (hcs : p = .group → ∀ x ∈ cs, ∀ k, x.kind ≠ .plain (.group k)) :
    ((p.rule i c cs).flatMap (roster holder)).Perm (cs.flatMap (roster holder)) := by
  cases p with
  | nestSingletons => exact perm_roster_gathered rfl (fun _ => roster_clearSingleton) cs
  | nestVisibilities =>
      clear hcs
      cases i with
      | true => exact .refl _
      | false =>
          change ((Visibility.all.foldl (fun cs v => gathered (.visibilityGroup v) (hasVisibility v) id cs)
            cs).flatMap (roster holder)).Perm _
          induction Visibility.all generalizing cs with
          | nil => exact .refl _
          | cons v vs ih =>
              rw [List.foldl_cons]
              exact ih.trans (perm_roster_gathered rfl (fun _ _ => rfl) cs)
  | group =>
      cases hc : isGroup c with
      | true => simp only [Pass.rule, hc, if_true, List.Perm.refl]
      | false =>
          simp only [Pass.rule, hc, Bool.false_eq_true, if_false]
          exact perm_roster_grouped (hcs rfl)
  | sort => exact (perm_sort i c cs).flatMap_right _

theorem perm_roster_rework {K : Bool → Kind → Prop}
    (hline : ∀ k ∈ Category.steady, ∀ i c cs, (g i c cs).flatMap (line k) = cs.flatMap (line k))
    (hroster : ∀ i c cs holder, Children K i c cs →
      ((g i c cs).flatMap (roster holder)).Perm (cs.flatMap (roster holder)))
    (ho : o.Everywhere (Children K) i) (holder : Option Handle) :
    ((o.rework g i).roster holder).Perm (o.roster holder) := by
  induction o generalizing i holder with
  | node h c n cs ih =>
      rw [everywhere_node] at ho
      by_cases hc : c.isContainer = true
      · obtain ⟨hK, hcs⟩ := ho hc
        have hbelow (holder : Option Handle) :
            ((g (c.within i) c (cs.map (rework g (c.within i)))).flatMap (roster holder)).Perm
              (cs.flatMap (roster holder)) := by
          refine (hroster _ _ _ holder (children_map_rework hK)).trans ?_
          rw [List.flatMap_map]
          exact List.Perm.flatMap_left cs fun x hx => ih x hx (hcs x hx) holder
        have hlines : lines (g (c.within i) c (cs.map (rework g (c.within i)))) = lines cs := by
          refine List.map_congr_left fun k hk => ?_
          rw [hline k hk, List.flatMap_map]
          exact List.flatMap_congr fun x _ => line_rework (hline k hk) x
        rw [rework_container hc]
        by_cases hn : h = 0 ∧ c.isFolder = true
        · obtain ⟨rfl, hf⟩ := hn
          rw [roster_folder hf, roster_folder hf]
          exact hbelow holder
        · rw [roster_node hn, roster_node hn, hlines]
          exact (hbelow (some h)).cons _
      · rw [rework, if_neg hc]
  | conflict h form labels n l r ihl ihr =>
      rw [rework_conflict, roster, roster, handle_rework, handle_rework]
      exact ((ihl ho.1 (some h)).append (ihr ho.2 (some h))).cons _

def NoGroups (_ : Bool) (kind : Kind) : Prop := ∀ k, kind ≠ .plain (.group k)

def Ungrouped (o : Outline) : Prop := o.Everywhere (Children NoGroups) false

theorem Ungrouped.nestSingletons (ho : o.Ungrouped) : (Pass.nestSingletons.reworked o).Ungrouped := by
  refine everywhere_rework ho fun i c cs hK hcs => ?_
  have hK' := children_map_rework (g := Pass.nestSingletons.rule) hK
  have hcs' := forall_map_rework hcs
  constructor
  · intro x hx
    rcases mem_gathered.mp hx with ⟨hx, -⟩ | ⟨-, rfl⟩
    · exact hK' x hx
    · exact nofun
  · intro x hx
    rcases mem_gathered.mp hx with ⟨hx, -⟩ | ⟨-, rfl⟩
    · exact hcs' x hx
    · rw [everywhere_node]
      intro _
      constructor
      · intro y hy
        obtain ⟨z, hz, rfl⟩ := List.mem_map.mp hy
        obtain ⟨h, m, n, ks, rfl⟩ := leaf_of_isSingletonMethod (List.mem_filter.mp hz).2
        exact nofun
      · intro y hy
        obtain ⟨z, hz, rfl⟩ := List.mem_map.mp hy
        obtain ⟨h, m, n, ks, rfl⟩ := leaf_of_isSingletonMethod (List.mem_filter.mp hz).2
        exact everywhere_leaf _ _ _ _

theorem Ungrouped.nestVisibilities (ho : o.Ungrouped) :
    (Pass.nestVisibilities.reworked o).Ungrouped :=
  (inSections_nestVisibilities (fun _ => nofun) (fun _ h => h) ho).imp fun _ _ _ h x hx => (h x hx).1

theorem Ungrouped.perm_roster (p : Pass) (ho : o.Ungrouped) (holder : Option Handle) :
    ((p.reworked o).roster holder).Perm (o.roster holder) :=
  perm_roster_rework (K := NoGroups) (fun _ hk => flatMap_line_rule p hk)
    (fun _ _ _ _ hcs => perm_roster_rule p fun _ => hcs) ho holder

/-- The passes in their canonical order neither lose nor double a node, and leave it where it is. -/
theorem Ungrouped.perm_roster_canonical (ho : o.Ungrouped) (holder : Option Handle) :
    ((Pass.canonical.foldl (fun o p => p.reworked o) o).roster holder).Perm (o.roster holder) := by
  simp only [Pass.canonical, List.foldl_cons, List.foldl_nil]
  have h₁ := ho.nestSingletons
  have h₂ := h₁.nestVisibilities
  have hsort (x : Outline) : ((Pass.sort.reworked x).roster holder).Perm (x.roster holder) := by
    have hx : x.Everywhere (Children fun _ _ => True) false :=
      everywhere_of_forall fun _ _ _ _ _ => trivial
    exact perm_roster_rework (fun _ hk => flatMap_line_rule .sort hk)
      (fun _ _ _ _ _ => perm_roster_rule .sort fun h => by cases h) hx holder
  exact (hsort _).trans ((h₂.perm_roster .group holder).trans
    ((h₁.perm_roster .nestVisibilities holder).trans (ho.perm_roster .nestSingletons holder)))

end Outline

end Reconcile
