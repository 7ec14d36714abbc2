import Reconcile.Proofs.Layout.Reading
import Reconcile.Proofs.Normal.Stability

namespace Reconcile

open Outline

namespace Outline

/-- Trees, scopes and leaves, as documents have them, but no markers. -/
inductive Plain : Outline → Prop
  | tree (h : Handle) (n : Notes) (cs : List Outline) (hcs : ∀ x ∈ cs, Plain x) :
      Plain (node h .tree n cs)
  | scope (h : Handle) (s : Scope) (n : Notes) (cs : List Outline) (hcs : ∀ x ∈ cs, Plain x) :
      Plain (node h (.scope s) n cs)
  | leaf (h : Handle) (l : Leaf) (n : Notes) (hm : ∀ v, l ≠ .marker v) : Plain (node h (.leaf l) n [])

def arranged (o : Outline) : Outline :=
  Pass.sort.reworked (Pass.group.reworked (Pass.nestVisibilities.reworked o))

/-- Entries in groups by category, in order. -/
def catalogued (es : List Outline) : List Outline :=
  grouped fun k => sorted (es.filter (·.kind.category = k))

def folder (c : Content) (ms : List Outline) : List Outline :=
  if ms.isEmpty then [] else [node 0 c {} ms]

def ofVisibility (v : Visibility) (cs : List Outline) : List Outline := cs.filter (hasVisibility v)

/-- The visibility groups for the methods and attributes of a container. -/
def folders (cs : List Outline) : List Outline :=
  Visibility.all.flatMap fun v => folder (.visibilityGroup v) (catalogued (ofVisibility v cs))

def others (cs : List Outline) : List Outline := (cs.filter (·.kind.visibility? = none)).map arranged

def entries (cs : List Outline) : List Outline := others cs ++ folders cs

variable {c : Content} {cs es : List Outline} {o : Outline} {v : Visibility}

theorem container_of_body (hc : c = .tree ∨ ∃ s, c = .scope s) :
    c.isContainer = true ∧ isGroup c = false ∧ c.within false = false := by
  rcases hc with rfl | ⟨s, rfl⟩ <;> exact ⟨rfl, rfl, rfl⟩

theorem gathered_eq (c : Content) (pick : Outline → Bool) (τ : Outline → Outline) (cs : List Outline) :
    gathered c pick τ cs = cs.filter (!pick ·) ++ folder c ((cs.filter pick).map τ) := by
  rw [gathered, folder]
  cases hany : cs.any pick with
  | true =>
      have hne : ((cs.filter pick).map τ).isEmpty = false := by
        simpa [List.isEmpty_eq_false_iff] using hany
      simp [hne]
  | false =>
      have hnone : cs.filter pick = [] := by simpa using hany
      have hall : cs.filter (!pick ·) = cs := by simpa using hany
      simp [hnone, hall]

theorem mem_folder {ms : List Outline} (ho : o ∈ folder c ms) : ms ≠ [] ∧ o = node 0 c {} ms := by
  rw [folder] at ho
  split at ho
  · cases ho
  · next hne => exact ⟨by simpa using hne, List.mem_singleton.mp ho⟩

theorem flatMap_folder {α : Type} {F : Outline → List α} {ms : List Outline}
    (hF : F (node 0 c {} ms) = ms.flatMap F) : (folder c ms).flatMap F = ms.flatMap F := by
  rw [folder]
  split
  · next hnil => rw [List.isEmpty_iff.mp hnil]
  · rw [List.flatMap_singleton, hF]

theorem foldl_gathered {vs : List Visibility} (hvs : vs.Nodup) (cs : List Outline) :
    vs.foldl (fun cs v => gathered (.visibilityGroup v) (hasVisibility v) id cs) cs =
      cs.filter (fun x => vs.all (!x.hasVisibility ·)) ++
        vs.flatMap fun v => folder (.visibilityGroup v) (ofVisibility v cs) := by
  induction vs generalizing cs with
  | nil => simp
  | cons v vs ih =>
      rw [List.nodup_cons] at hvs
      rw [List.foldl_cons, gathered_eq, List.map_id, ← ofVisibility, ih hvs.2, List.flatMap_cons]
      have hfolder (w : Visibility) :
          ∀ x ∈ folder (.visibilityGroup v) (ofVisibility v cs), x.hasVisibility w = false := by
        intro x hx
        obtain ⟨-, rfl⟩ := mem_folder hx
        rfl
      -- The new group is passed over by what comes later.
      generalize folder (.visibilityGroup v) (ofVisibility v cs) = fs at hfolder ⊢
      have hrest : (cs.filter (!hasVisibility v ·) ++ fs).filter (fun x => vs.all (!x.hasVisibility ·)) =
          cs.filter (fun x => (v :: vs).all (!x.hasVisibility ·)) ++ fs := by
        rw [List.filter_append, List.filter_filter]
        congr 1
        · congr 1
          funext x
          rw [List.all_cons, Bool.and_comm]
        · rw [List.filter_eq_self]
          intro x hx
          simp [hfolder _ x hx]
      have hothers (w : Visibility) (hw : w ∈ vs) :
          ofVisibility w (cs.filter (!hasVisibility v ·) ++ fs) = ofVisibility w cs := by
        have hnone : fs.filter (hasVisibility w) = [] := by
          rw [List.filter_eq_nil_iff]
          intro x hx
          simp [hfolder w x hx]
        rw [ofVisibility, List.filter_append, hnone, List.append_nil, List.filter_filter]
        refine List.filter_congr fun x _ => ?_
        have hwv : w ≠ v := fun h => hvs.1 (h ▸ hw)
        cases hx : x.hasVisibility w with
        | false => rfl
        | true =>
            have hxv : x.kind.visibility? = some w := by simpa [hasVisibility] using hx
            simp [hasVisibility, hxv, hwv]
      rw [hrest, List.append_assoc, List.flatMap_congr fun w hw => by rw [hothers w hw]]

theorem perm_flatMap_filter {α κ : Type} [DecidableEq κ] (key : α → κ) {ks : List κ} (hks : ks.Nodup)
    {l : List α} (hl : ∀ x ∈ l, key x ∈ ks) : (ks.flatMap fun k => l.filter (key · = k)).Perm l := by
  induction ks generalizing l with
  | nil =>
      rw [List.eq_nil_iff_forall_not_mem.mpr fun x hx => List.not_mem_nil (hl x hx)]
      rfl
  | cons k ks ih =>
      rw [List.nodup_cons] at hks
      have hrest : ∀ x ∈ l.filter (¬key · = k), key x ∈ ks := by
        intro x hx
        obtain ⟨hx, hk⟩ := List.mem_filter.mp hx
        exact (List.mem_cons.mp (hl x hx)).resolve_left (by simpa using hk)
      have hkeep : ∀ k' ∈ ks, (l.filter (¬key · = k)).filter (key · = k') = l.filter (key · = k') := by
        intro k' hk'
        rw [List.filter_filter]
        refine List.filter_congr fun x _ => ?_
        by_cases hx : key x = k'
        · simp [hx, show k' ≠ k from fun h => hks.1 (h ▸ hk')]
        · simp [hx]
      rw [List.flatMap_cons, ← List.flatMap_congr hkeep]
      refine ((ih hks.2 hrest).append_left _).trans ?_
      simpa using List.filter_append_perm (key · = k) l

theorem flatMap_grouped {α : Type} {F : Outline → List α}
    (hF : ∀ k cs, F (node 0 (.group k) {} cs) = cs.flatMap F) (ms : Category → List Outline) :
    (grouped ms).flatMap F = Category.all.flatMap fun k => (ms k).flatMap F := by
  rw [grouped, List.flatMap_assoc]
  refine List.flatMap_congr fun k _ => ?_
  split
  · next hnil => simp [List.isEmpty_iff.mp hnil]
  · simp [hF]

theorem mem_all (k : Category) : k ∈ Category.all := by
  cases k <;> decide

theorem flatMap_catalogued {α : Type} {F : Outline → List α}
    (hF : ∀ k cs, F (node 0 (.group k) {} cs) = cs.flatMap F) (es : List Outline) :
    ((catalogued es).flatMap F).Perm (es.flatMap F) := by
  have hparts := perm_flatMap_filter (fun x : Outline => x.kind.category)
    (by decide : Category.all.Nodup) fun x (_ : x ∈ es) => mem_all _
  rw [catalogued, flatMap_grouped hF]
  refine (List.Perm.flatMap_left _ fun k _ => (perm_sortBy _ _).flatMap_right F).trans ?_
  rw [← List.flatMap_assoc]
  exact hparts.flatMap_right F

theorem released_of_no_group (ho : ∀ k, o.kind ≠ .plain (.group k)) :
    released o = [(o.kind.category, o)] := by
  unfold released
  split
  · exact (ho _ rfl).elim
  · rfl

theorem members_of_no_group (hes : ∀ x ∈ es, ∀ k, x.kind ≠ .plain (.group k)) (k : Category) :
    members es k = es.filter (·.kind.category = k) := by
  have hreleased : es.flatMap released = es.map fun x => (x.kind.category, x) := by
    rw [← List.flatMap_pure_eq_map]
    exact List.flatMap_congr fun x hx => released_of_no_group (hes x hx)
  rw [members, hreleased, List.filter_map, List.map_map]
  exact List.map_id _

def shelved (i : Bool) (o : Outline) : Outline := (o.rework Pass.group.rule i).rework Pass.sort.rule i

@[simp] theorem kind_shelved (i : Bool) (o : Outline) : (o.shelved i).kind = o.kind := by
  rw [shelved, kind_rework, kind_rework]

theorem isMarker_of_kind {o' : Outline} (h : o.kind = o'.kind) : o.isMarker = o'.isMarker := by
  rw [isMarker, isMarker, h]

theorem shelved_container {i : Bool} (hc : c.isContainer = true) (hg : isGroup c = false)
    (hes : ∀ x ∈ es, ∀ k, x.kind ≠ .plain (.group k)) (hm : ∀ x ∈ es, x.isMarker = false)
    (h : Handle) (n : Notes) :
    (node h c n es).shelved i = node h c n (catalogued (es.map (shelved (c.within i)))) := by
  have hes' : ∀ x ∈ es.map (rework Pass.group.rule (c.within i)), ∀ k, x.kind ≠ .plain (.group k) := by
    intro x hx
    obtain ⟨y, hy, rfl⟩ := List.mem_map.mp hx
    rw [kind_rework]
    exact hes y hy
  have hgroup : Pass.group.rule (c.within i) c (es.map (rework Pass.group.rule (c.within i))) =
      grouped (members (es.map (rework Pass.group.rule (c.within i)))) := if_neg (by simp [hg])
  rw [shelved, rework_container hc, hgroup, rework_container hc, grouped_map_sort, sort_grouped,
    catalogued]
  congr 2
  funext k
  have hmembers : (members (es.map (rework Pass.group.rule (c.within i))) k).map
      (rework Pass.sort.rule (c.within i)) =
      (es.map (shelved (c.within i))).filter (·.kind.category = k) := by
    rw [members_of_no_group hes', List.filter_map, List.filter_map, List.map_map]
    congr 2
    funext x
    simp
  rw [hmembers, sort_of_no_marker]
  rw [List.any_eq_false]
  intro x hx
  obtain ⟨y, hy, rfl⟩ := List.mem_map.mp (List.mem_filter.mp hx).1
  simp [isMarker_of_kind (kind_shelved _ y), hm y hy]

theorem arranged_eq (o : Outline) :
    o.arranged = (o.rework Pass.nestVisibilities.rule false).shelved false := rfl

@[simp] theorem kind_arranged (o : Outline) : o.arranged.kind = o.kind := by
  rw [arranged_eq, kind_shelved, kind_rework]

namespace Plain

theorem ne_group (ho : o.Plain) (k : Category) : o.kind ≠ .plain (.group k) := by
  cases ho <;> exact nofun

theorem not_isMarker (ho : o.Plain) : o.isMarker = false := by
  cases ho with
  | tree | scope => rfl
  | leaf h l n hm =>
      cases l with
      | marker v => exact absurd rfl (hm v)
      | _ => rfl

end Plain

theorem mem_sorted : o ∈ sorted cs ↔ o ∈ cs := (perm_sortBy _ cs).mem_iff

theorem catalogued_eq_nil_iff : catalogued es = [] ↔ es = [] := by
  rw [catalogued, grouped, List.flatMap_eq_nil_iff]
  constructor
  · intro h
    rw [List.eq_nil_iff_forall_not_mem]
    intro x hx
    have hk := h x.kind.category (mem_all _)
    split at hk
    · next hnil =>
        have hmem : x ∈ sorted (es.filter (·.kind.category = x.kind.category)) :=
          mem_sorted.mpr (List.mem_filter.mpr ⟨hx, decide_eq_true rfl⟩)
        rw [List.isEmpty_iff.mp hnil] at hmem
        exact List.not_mem_nil hmem
    · cases hk
  · rintro rfl k -
    rfl

theorem kind_of_hasVisibility (ho : o.hasVisibility v = true) :
    (∀ k, o.kind ≠ .plain (.group k)) ∧ o.isMarker = false := by
  obtain ⟨h, l, n, cs, rfl⟩ := leaf_of_hasVisibility ho
  cases l with
  | marker w => cases ho
  | _ => exact ⟨nofun, rfl⟩

theorem map_shelved_folder {ms : List Outline} (hms : ∀ x ∈ ms, x.hasVisibility v = true) :
    (folder (.visibilityGroup v) ms).map (shelved false) =
      folder (.visibilityGroup v) (catalogued ms) := by
  have hleaf : ms.map (shelved true) = ms := by
    refine (List.map_congr_left fun x hx => ?_).trans (List.map_id ms)
    obtain ⟨h, l, n, cs, rfl⟩ := leaf_of_hasVisibility (hms x hx)
    rfl
  by_cases hnil : ms = []
  · simp [folder, hnil, catalogued_eq_nil_iff.mpr]
  · have hnil' : catalogued ms ≠ [] := fun h => hnil (catalogued_eq_nil_iff.mp h)
    rw [folder, folder, if_neg (by simpa using hnil), if_neg (by simpa using hnil'), List.map_singleton,
      shelved_container rfl rfl (fun x hx => (kind_of_hasVisibility (hms x hx)).1)
        (fun x hx => (kind_of_hasVisibility (hms x hx)).2)]
    simp only [Content.within, hleaf]

theorem nestVisibilities_container (hc : c = .tree ∨ ∃ s, c = .scope s) (h : Handle) (n : Notes) :
    (node h c n cs).rework Pass.nestVisibilities.rule false = node h c n
      ((cs.filter (·.kind.visibility? = none)).map (rework Pass.nestVisibilities.rule false) ++
        Visibility.all.flatMap fun v => folder (.visibilityGroup v) (ofVisibility v cs)) := by
  obtain ⟨hcont, -, hwithin⟩ := container_of_body hc
  let ds := cs.map (rework Pass.nestVisibilities.rule false)
  have hrule : Pass.nestVisibilities.rule false c ds =
      ds.filter (fun x => Visibility.all.all (!x.hasVisibility ·)) ++
        Visibility.all.flatMap fun v => folder (.visibilityGroup v) (ofVisibility v ds) :=
    foldl_gathered (by decide) ds
  have hrest : ds.filter (fun x => Visibility.all.all (!x.hasVisibility ·)) =
      (cs.filter (·.kind.visibility? = none)).map (rework Pass.nestVisibilities.rule false) := by
    rw [List.filter_map]
    congr 2
    funext x
    cases hv : x.kind.visibility? with
    | none => simp [hasVisibility, hv]
    | some v => cases v <;> simp [hasVisibility, hv, Visibility.all]
  have hmembers (v : Visibility) : ofVisibility v ds = ofVisibility v cs := by
    have hsame :
        ofVisibility v ds = (ofVisibility v cs).map (rework Pass.nestVisibilities.rule false) := by
      rw [ofVisibility, ofVisibility, List.filter_map]
      congr 2
      funext x
      simp [hasVisibility]
    rw [hsame]
    refine (List.map_congr_left fun x hx => ?_).trans (List.map_id _)
    obtain ⟨h, l, n, ks, rfl⟩ := leaf_of_hasVisibility (List.mem_filter.mp hx).2
    rfl
  rw [rework_container hcont, hwithin, hrule, hrest, List.flatMap_congr fun v _ => by rw [hmembers v]]

/-- What the passes after the first one make of a container with plain children. -/
theorem arranged_container (hc : c = .tree ∨ ∃ s, c = .scope s) (hcs : ∀ x ∈ cs, x.Plain) (h : Handle)
    (n : Notes) : (node h c n cs).arranged = node h c n (catalogued (entries cs)) := by
  obtain ⟨hcont, hgroup, hwithin⟩ := container_of_body hc
  have hkinds : ∀ x ∈ (cs.filter (·.kind.visibility? = none)).map
      (rework Pass.nestVisibilities.rule false) ++ Visibility.all.flatMap fun v =>
        folder (.visibilityGroup v) (ofVisibility v cs),
      (∀ k, x.kind ≠ .plain (.group k)) ∧ x.isMarker = false := by
    intro x hx
    rcases List.mem_append.mp hx with hx | hx
    · obtain ⟨y, hy, rfl⟩ := List.mem_map.mp hx
      have hplain := hcs y (List.mem_filter.mp hy).1
      rw [isMarker_of_kind (kind_rework y), kind_rework]
      exact ⟨hplain.ne_group, hplain.not_isMarker⟩
    · obtain ⟨v, -, hx⟩ := List.mem_flatMap.mp hx
      obtain ⟨-, rfl⟩ := mem_folder hx
      exact ⟨nofun, rfl⟩
  have hfolders (v : Visibility) :
      (folder (.visibilityGroup v) (ofVisibility v cs)).map (shelved false) =
        folder (.visibilityGroup v) (catalogued (ofVisibility v cs)) :=
    map_shelved_folder fun x hx => (List.mem_filter.mp hx).2
  rw [arranged_eq, nestVisibilities_container hc, shelved_container hcont hgroup
    (fun x hx => (hkinds x hx).1) (fun x hx => (hkinds x hx).2), hwithin, List.map_append, List.map_map,
    List.map_flatMap, List.flatMap_congr fun v _ => hfolders v]
  rfl

end Outline

end Reconcile
