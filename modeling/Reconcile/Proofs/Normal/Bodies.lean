import Reconcile.Proofs.Normal.Arrangement

namespace Reconcile

open Outline

namespace Outline

def ownVisibilities (cs : List Outline) : List Visibility :=
  (cs.filter (!·.isSingletonMethod)).filterMap (·.kind.visibility?)

mutual

/-- The stretches of the body that an outline is part of. -/
def stretches : Outline → List (List Visibility)
  | node _ .tree _ cs => ownVisibilities cs :: stretchesOfAll cs
  | _ => []

def stretchesOfAll : List Outline → List (List Visibility)
  | [] => []
  | o :: os => o.stretches ++ stretchesOfAll os

end

mutual

/-- The stretches of each scope inside an outline, and of the outline if it is a scope. -/
def bodies : Outline → List (List (List Visibility))
  | node _ .tree _ cs => bodiesOfAll cs
  | node _ (.scope _) _ cs => (ownVisibilities cs :: stretchesOfAll cs) :: bodiesOfAll cs
  | _ => []

def bodiesOfAll : List Outline → List (List (List Visibility))
  | [] => []
  | o :: os => o.bodies ++ bodiesOfAll os

end

@[simp] theorem stretchesOfAll_eq (os : List Outline) : stretchesOfAll os = os.flatMap stretches := by
  induction os with
  | nil => rfl
  | cons o os ih => simp [stretchesOfAll, ih]

@[simp] theorem bodiesOfAll_eq (os : List Outline) : bodiesOfAll os = os.flatMap bodies := by
  induction os with
  | nil => rfl
  | cons o os ih => simp [bodiesOfAll, ih]

/-- No public member comes after a member of another visibility in an earlier stretch. -/
def Ordered (body : List (List Visibility)) : Prop :=
  body.Pairwise fun vs ws => ∀ v ∈ vs, ∀ w ∈ ws, v.Precedes w

instance (body : List (List Visibility)) : Decidable (Ordered body) :=
  inferInstanceAs (Decidable (body.Pairwise fun vs ws => ∀ v ∈ vs, ∀ w ∈ ws, v.Precedes w))

def InOrder (o : Outline) : Prop := ∀ body ∈ o.stretches :: o.bodies, Ordered body

instance (o : Outline) : Decidable o.InOrder :=
  inferInstanceAs (Decidable (∀ body ∈ o.stretches :: o.bodies, Ordered body))

def bandsOf (vs : List Visibility) : List Visibility := Visibility.all.filter (· ∈ vs)

theorem mem_bandsOf {v : Visibility} {vs : List Visibility} : v ∈ bandsOf vs ↔ v ∈ vs := by
  have hall : v ∈ Visibility.all := by cases v <;> decide
  simp [bandsOf, hall]

theorem ordered_iff (body : List (List Visibility)) :
    (body.flatMap bandsOf).Pairwise Visibility.Precedes ↔ Ordered body := by
  have hall : Visibility.all.Pairwise Visibility.Precedes := by decide
  rw [List.pairwise_flatMap]
  simp only [mem_bandsOf]
  exact and_iff_right fun vs _ => hall.sublist List.filter_sublist

variable {cs : List Outline} {o : Outline} {v : Visibility}

/-- The bands of an ordered body are read as they are declared. -/
theorem seen_iff_ordered {bs : List Band} {body : List (List Visibility)} (hbs : ∀ b ∈ bs, b.Truthful)
    (hbody : bs.map Band.visibility = body.flatMap bandsOf) :
    (∀ x ∈ Band.seen .pub bs, x.1.visibility? = some x.2) ↔ Ordered body := by
  rw [Band.seen_iff hbs, hbody, List.pairwise_cons, ordered_iff]
  exact and_iff_right fun v _ _ => rfl

theorem mem_catalogued {es : List Outline} (ho : o ∈ catalogued es) :
    ∃ k ms, o = node 0 (.group k) {} ms ∧ ms ⊆ es := by
  obtain ⟨k, rfl⟩ := mem_grouped ho
  exact ⟨k, _, rfl, fun x hx => (List.mem_filter.mp (mem_sorted.mp hx)).1⟩

theorem mem_entries (ho : o ∈ entries cs) : (∃ x ∈ cs, x.kind.visibility? = none ∧ o = x.arranged) ∨
    ∃ v, ofVisibility v cs ≠ [] ∧
      o = node 0 (.visibilityGroup v) {} (catalogued (ofVisibility v cs)) := by
  rcases List.mem_append.mp ho with ho | ho
  · obtain ⟨x, hx, rfl⟩ := List.mem_map.mp ho
    obtain ⟨hx, hv⟩ := List.mem_filter.mp hx
    exact Or.inl ⟨x, hx, of_decide_eq_true hv, rfl⟩
  · obtain ⟨v, -, ho⟩ := List.mem_flatMap.mp ho
    obtain ⟨hne, rfl⟩ := mem_folder ho
    exact Or.inr ⟨v, fun h => hne (catalogued_eq_nil_iff.mpr h), rfl⟩

theorem Plain.leaf_of_hasVisibility (ho : o.Plain) (hv : o.hasVisibility v = true) :
    ∃ h l n, o = node h (.leaf l) n [] ∧ l.visibility? = some v := by
  cases ho with
  | tree | scope => cases hv
  | leaf h l n hm => exact ⟨h, l, n, rfl, of_decide_eq_true hv⟩

theorem leaves_catalogued (es : List Outline) :
    ((catalogued es).flatMap leaves).Perm (es.flatMap leaves) :=
  flatMap_catalogued (fun k cs => by simp [ownLeaf]) es

theorem filed_folder (hcs : ∀ x ∈ cs, x.Plain) (hne : ofVisibility v cs ≠ []) :
    (node 0 (.visibilityGroup v) {} (catalogued (ofVisibility v cs))).Filed := by
  have hleaf : ∀ x ∈ ofVisibility v cs, ∃ h l n, x = node h (.leaf l) n [] ∧ l.visibility? = some v := by
    intro x hx
    obtain ⟨hx, hv⟩ := List.mem_filter.mp hx
    exact (hcs x hx).leaf_of_hasVisibility hv
  apply Filed.visibilityGroup
  · obtain ⟨x, hx⟩ := List.exists_mem_of_ne_nil _ hne
    obtain ⟨h, l, n, rfl, -⟩ := hleaf x hx
    have hmem : (l, n) ∈ (ofVisibility v cs).flatMap leaves :=
      List.mem_flatMap.mpr ⟨_, hx, by simp [ownLeaf]⟩
    exact List.ne_nil_of_mem ((leaves_catalogued _).mem_iff.mpr hmem)
  · intro x hx
    obtain ⟨k, ms, rfl, hms⟩ := mem_catalogued hx
    refine .group 0 k {} ms fun y hy => ?_
    obtain ⟨h, l, n, rfl, hl⟩ := hleaf y (hms hy)
    exact .leaf h l n hl

theorem filed_entries (hcs : ∀ x ∈ cs, x.Plain)
    (harr : ∀ x ∈ cs, x.kind.visibility? = none → x.arranged.Filed) :
    ∀ x ∈ catalogued (entries cs), x.Filed := by
  intro x hx
  obtain ⟨k, ms, rfl, hms⟩ := mem_catalogued hx
  refine .group 0 k {} ms fun y hy => ?_
  rcases mem_entries (hms hy) with ⟨z, hz, hv, rfl⟩ | ⟨v, hne, rfl⟩
  · exact harr z hz hv
  · exact filed_folder hcs hne

theorem Plain.filed_arranged (ho : o.Plain) (hv : o.kind.visibility? = none) : o.arranged.Filed := by
  induction ho with
  | tree h n cs hcs ih =>
      rw [arranged_container (.inl rfl) hcs]
      exact .tree h n _ (filed_entries hcs ih)
  | scope h s n cs hcs ih =>
      rw [arranged_container (.inr ⟨s, rfl⟩) hcs]
      exact .scope h s n _ (filed_entries hcs ih)
  | leaf h l n hm => exact .leaf h l n hv hm

theorem filed_children (hcs : ∀ x ∈ cs, x.Plain) : ∀ x ∈ catalogued (entries cs), x.Filed :=
  filed_entries hcs fun x hx => (hcs x hx).filed_arranged

theorem Plain.kind_of_bands (ho : o.Plain) (hb : o.arranged.bands ≠ []) :
    o.kind = .plain .tree := by
  cases ho with
  | tree => rfl
  | scope h s n cs hcs =>
      rw [arranged_container (.inr ⟨s, rfl⟩) hcs] at hb
      exact absurd rfl hb
  | leaf => exact absurd rfl hb

theorem sortKey_of_kind {c : Content} (ho : o.kind = .plain c) :
    o.sortKey = ⟨(Kind.plain c).rank, c.sortName?⟩ := by
  cases o with
  | node => cases ho; rfl
  | conflict => cases ho

theorem kind_of_bands (hcs : ∀ x ∈ cs, x.Plain) (ho : o ∈ entries cs) (hb : o.bands ≠ []) :
    (o.kind = .plain .tree ∧ o.sortKey = ⟨(9, 0), none⟩) ∨
      ∃ v, o.kind = .plain (.visibilityGroup v) ∧ o.sortKey = ⟨(7, 0), none⟩ := by
  rcases mem_entries ho with ⟨x, hx, -, rfl⟩ | ⟨v, -, rfl⟩
  · have hkind := kind_arranged x
    rw [(hcs x hx).kind_of_bands hb] at hkind
    exact .inl ⟨hkind, sortKey_of_kind hkind⟩
  · exact .inr ⟨v, rfl, rfl⟩

theorem bands_sorted (hcs : ∀ x ∈ cs, x.Plain) (k : Category) :
    (sorted ((entries cs).filter (·.kind.category = k))).flatMap bands =
      ((entries cs).filter (·.kind.category = k)).flatMap bands := by
  have hkind : ∀ x ∈ ((entries cs).filter (·.kind.category = k)).filter fun x => !x.bands.isEmpty,
      x.kind.category = k ∧ ((x.kind = .plain .tree ∧ x.sortKey = ⟨(9, 0), none⟩) ∨
        ∃ v, x.kind = .plain (.visibilityGroup v) ∧ x.sortKey = ⟨(7, 0), none⟩) := by
    intro x hx
    obtain ⟨hx, hb⟩ := List.mem_filter.mp hx
    obtain ⟨hx, hk⟩ := List.mem_filter.mp hx
    exact ⟨of_decide_eq_true hk, kind_of_bands hcs hx (by simpa using hb)⟩
  refine flatMap_sortBy (List.pairwise_of_forall_mem_list ?_)
  intro x hx y hy
  obtain ⟨hxk, hx⟩ := hkind x hx
  obtain ⟨hyk, hy⟩ := hkind y hy
  have hkey : x.sortKey = y.sortKey := by
    rcases hx with ⟨hx, hxs⟩ | ⟨v, hx, hxs⟩
    · rcases hy with ⟨-, hys⟩ | ⟨w, hy, -⟩
      · rw [hxs, hys]
      · rw [hx] at hxk
        rw [hy, ← hxk] at hyk
        cases hyk
    · rcases hy with ⟨hy, -⟩ | ⟨w, -, hys⟩
      · rw [hy] at hyk
        rw [hx, ← hyk] at hxk
        cases hxk
      · rw [hxs, hys]
  rw [hkey]
  exact y.sortKey.le_refl

theorem flatMap_filter_key {α β κ : Type} [DecidableEq κ] {key : α → κ} {F : α → List β} {l : List α}
    {k₀ : κ} (h : ∀ x ∈ l, F x ≠ [] → key x = k₀) (k : κ) :
    (l.filter (key · = k)).flatMap F = if k = k₀ then l.flatMap F else [] := by
  induction l with
  | nil => simp
  | cons x l ih =>
      have ih := ih fun y hy => h y (List.mem_cons_of_mem x hy)
      by_cases hF : F x = []
      · rw [List.flatMap_cons, hF, List.nil_append, ← ih, List.filter_cons]
        split
        · rw [List.flatMap_cons, hF, List.nil_append]
        · rfl
      · have hx := h x List.mem_cons_self hF
        by_cases hk : k = k₀
        · rw [if_pos hk] at ih ⊢
          simp [hx, hk, ← ih]
        · rw [if_neg hk] at ih ⊢
          simp [hx, Ne.symm hk, ← ih]

theorem bands_children (hcs : ∀ x ∈ cs, x.Plain) : (catalogued (entries cs)).flatMap bands =
    (folders cs).flatMap bands ++ cs.flatMap fun x => x.arranged.bands := by
  have hothers : ∀ x ∈ others cs, x.bands ≠ [] → x.kind.category = .scopesAndConstants := by
    intro x hx hb
    obtain ⟨y, hy, rfl⟩ := List.mem_map.mp hx
    rw [kind_arranged, (hcs y (List.mem_filter.mp hy).1).kind_of_bands hb]
    rfl
  have hfolders : ∀ x ∈ folders cs, x.bands ≠ [] → x.kind.category = .methods := by
    intro x hx _
    obtain ⟨v, -, hx⟩ := List.mem_flatMap.mp hx
    obtain ⟨-, rfl⟩ := mem_folder hx
    rfl
  have hnone : (others cs).flatMap bands = cs.flatMap fun x => x.arranged.bands := by
    have hall : ∀ x ∈ cs, x.arranged.bands ≠ [] → x.kind.visibility? = none := by
      intro x hx hb
      rw [(hcs x hx).kind_of_bands hb]
      rfl
    rw [others, List.flatMap_map, flatMap_filter_key hall, if_pos rfl]
  have hparts (k : Category) : ((entries cs).filter (·.kind.category = k)).flatMap bands =
      (if k = .scopesAndConstants then (others cs).flatMap bands else []) ++
        if k = .methods then (folders cs).flatMap bands else [] := by
    rw [entries, List.filter_append, List.flatMap_append, flatMap_filter_key hothers,
      flatMap_filter_key hfolders]
  rw [catalogued, flatMap_grouped (fun k cs => by simp [bands]),
    List.flatMap_congr fun k _ => (bands_sorted hcs k).trans (hparts k), ← hnone]
  simp [Category.all]

theorem mem_ownVisibilities (hs : ∀ x ∈ cs, x.isSingletonMethod = false) :
    v ∈ ownVisibilities cs ↔ ofVisibility v cs ≠ [] := by
  have hall : cs.filter (!·.isSingletonMethod) = cs :=
    List.filter_eq_self.mpr fun x hx => by simp [hs x hx]
  simp [ownVisibilities, hall, ofVisibility, hasVisibility]

theorem visibility_folders (hs : ∀ x ∈ cs, x.isSingletonMethod = false) :
    ((folders cs).flatMap bands).map Band.visibility = bandsOf (ownVisibilities cs) := by
  have hfolder (v : Visibility) :
      ((folder (.visibilityGroup v) (catalogued (ofVisibility v cs))).flatMap bands).map
        Band.visibility = if v ∈ ownVisibilities cs then [v] else [] := by
    rw [folder]
    by_cases hv : ofVisibility v cs = []
    · simp [mem_ownVisibilities hs, hv, catalogued_eq_nil_iff.mpr]
    · have hne : catalogued (ofVisibility v cs) ≠ [] := fun h => hv (catalogued_eq_nil_iff.mp h)
      simp [mem_ownVisibilities hs, hv, hne, bands]
  rw [folders, List.flatMap_assoc, List.map_flatMap, List.flatMap_congr fun v _ => hfolder v, bandsOf]
  generalize Visibility.all = all
  induction all with
  | nil => rfl
  | cons w all ih =>
      by_cases hw : w ∈ ownVisibilities cs
      · simp [hw, ih]
      · simp [hw, ih]

theorem visibility_children (hcs : ∀ x ∈ cs, x.Plain) (hs : ∀ x ∈ cs, x.isSingletonMethod = false)
    (ih : ∀ x ∈ cs, x.arranged.bands.map Band.visibility = x.stretches.flatMap bandsOf) :
    ((catalogued (entries cs)).flatMap bands).map Band.visibility =
      (ownVisibilities cs :: cs.flatMap stretches).flatMap bandsOf := by
  rw [bands_children hcs, List.map_append, visibility_folders hs, List.flatMap_cons, List.map_flatMap,
    List.flatMap_congr ih, List.flatMap_assoc]

theorem perm_seenInScopes (hcs : ∀ x ∈ cs, x.Plain) :
    ((catalogued (entries cs)).flatMap seenInScopes).Perm
      (cs.flatMap fun x => x.arranged.seenInScopes) := by
  refine (flatMap_catalogued (fun k cs => by simp [seenInScopes]) _).trans (List.Perm.of_eq ?_)
  have hfolders : (folders cs).flatMap seenInScopes = [] := by
    rw [List.flatMap_eq_nil_iff]
    intro x hx
    obtain ⟨v, -, hx⟩ := List.mem_flatMap.mp hx
    obtain ⟨-, rfl⟩ := mem_folder hx
    rfl
  have hnone : ∀ x ∈ cs, x.arranged.seenInScopes ≠ [] → x.kind.visibility? = none := by
    intro x hx hne
    have hplain := hcs x hx
    cases hplain with
    | tree | scope => rfl
    | leaf => exact absurd rfl hne
  rw [entries, List.flatMap_append, hfolders, List.append_nil, others, List.flatMap_map,
    flatMap_filter_key hnone, if_pos rfl]

namespace Plain

theorem visibility_bands (ho : o.Plain) (hs : o.Everywhere (Children NoSingletons) false) :
    o.arranged.bands.map Band.visibility = o.stretches.flatMap bandsOf := by
  induction ho with
  | tree h n cs hcs ih =>
      obtain ⟨hown, hs⟩ := everywhere_node.mp hs rfl
      rw [arranged_container (.inl rfl) hcs]
      simpa [bands, stretches] using visibility_children hcs hown fun x hx => ih x hx (hs x hx)
  | scope h s n cs hcs ih =>
      rw [arranged_container (.inr ⟨s, rfl⟩) hcs]
      rfl
  | leaf => rfl

theorem seenInScopes_iff (ho : o.Plain) (hs : o.Everywhere (Children NoSingletons) false) :
    (∀ x ∈ o.arranged.seenInScopes, x.1.visibility? = some x.2) ↔ ∀ body ∈ o.bodies, Ordered body := by
  have children {cs : List Outline} (hcs : ∀ x ∈ cs, x.Plain) (ih : ∀ y ∈ cs,
      (∀ x ∈ y.arranged.seenInScopes, x.1.visibility? = some x.2) ↔ ∀ body ∈ y.bodies, Ordered body) :
      (∀ x ∈ (catalogued (entries cs)).flatMap seenInScopes, x.1.visibility? = some x.2) ↔
        ∀ body ∈ cs.flatMap bodies, Ordered body := by
    simp only [(perm_seenInScopes hcs).mem_iff, List.forall_mem_flatMap]
    exact forall₂_congr ih
  induction ho with
  | tree h n cs hcs ih =>
      obtain ⟨-, hs⟩ := everywhere_node.mp hs rfl
      rw [arranged_container (.inl rfl) hcs]
      simpa [seenInScopes, bodies] using children hcs fun x hx => ih x hx (hs x hx)
  | scope h s n cs hcs ih =>
      obtain ⟨hown, hs⟩ := everywhere_node.mp hs rfl
      rw [arranged_container (.inr ⟨s, rfl⟩) hcs, seenInScopes, bodies, List.forall_mem_append,
        List.forall_mem_cons, bandsOfAll_eq, seenInScopesOfAll_eq, stretchesOfAll_eq, bodiesOfAll_eq]
      refine and_congr (seen_iff_ordered (Filed.truthful_of_children (filed_children hcs)) ?_)
        (children hcs fun x hx => ih x hx (hs x hx))
      exact visibility_children hcs hown fun x hx => (hcs x hx).visibility_bands (hs x hx)
  | leaf => exact iff_of_true (List.forall_mem_nil _) (List.forall_mem_nil _)

end Plain

end Outline

end Reconcile
