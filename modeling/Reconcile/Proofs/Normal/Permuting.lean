import Reconcile.Proofs.Normal.Visibility

namespace Reconcile

open Outline

theorem eq_of_pairwise_of_filter {α : Type} {key : α → SortKey} {l l' : List α}
    (hl : l.Pairwise fun a b => (key a).le (key b) = true)
    (hl' : l'.Pairwise fun a b => (key a).le (key b) = true)
    (h : ∀ k, l.filter (key · = k) = l'.filter (key · = k)) : l = l' := by
  have mem {l l' : List α} (h : ∀ k, l.filter (key · = k) = l'.filter (key · = k)) {a : α}
      (ha : a ∈ l) : a ∈ l' := by
    have hf : a ∈ l.filter (key · = key a) := List.mem_filter.mpr ⟨ha, decide_eq_true rfl⟩
    rw [h] at hf
    exact (List.mem_filter.mp hf).1
  induction l generalizing l' with
  | nil =>
      cases l' with
      | nil => rfl
      | cons b l' => exact absurd (mem (fun k => (h k).symm) List.mem_cons_self) List.not_mem_nil
  | cons a l ih =>
      cases l' with
      | nil => exact absurd (mem h List.mem_cons_self) List.not_mem_nil
      | cons b l' =>
          rw [List.pairwise_cons] at hl hl'
          -- The first elements have the same key, as each of them is in both lists.
          have hkey : key a = key b := by
            rcases List.mem_cons.mp (mem h List.mem_cons_self) with rfl | ha
            · rfl
            rcases List.mem_cons.mp (mem (fun k => (h k).symm) List.mem_cons_self) with rfl | hb
            · rfl
            exact SortKey.le_antisymm _ _ (hl.1 b hb) (hl'.1 a ha)
          have hhead := h (key a)
          rw [List.filter_cons_of_pos (by simp), List.filter_cons_of_pos (by simp [hkey])] at hhead
          obtain ⟨rfl, htail⟩ := List.cons.inj hhead
          refine congrArg (a :: ·) (ih hl.2 hl'.2 fun k => ?_)
          by_cases hk : key a = k
          · rw [← hk, htail]
          · have hk := h k
            rwa [List.filter_cons_of_neg (by simpa), List.filter_cons_of_neg (by simpa)] at hk

theorem filter_eq_of_perm {α κ : Type} [DecidableEq κ] {f : α → κ} {l l' : List α} (hp : l.Perm l')
    (hd : (l.map f).Nodup) (k : κ) : l.filter (f · = k) = l'.filter (f · = k) := by
  have hf := hp.filter (f · = k)
  have hn : ((l.filter (f · = k)).map f).Nodup := hd.sublist ((List.filter_sublist).map f)
  have hk : ∀ x ∈ l.filter (f · = k), f x = k := fun x hx => by simpa using (List.mem_filter.mp hx).2
  cases hl : l.filter (f · = k) with
  | nil =>
      rw [hl] at hf
      exact (List.nil_perm.mp hf).symm
  | cons a rest =>
      rw [hl] at hf hn hk
      cases rest with
      | nil => exact List.singleton_perm.mp hf
      | cons b rest =>
          have hab : f a = f b := (hk a (by simp)).trans (hk b (by simp)).symm
          rw [List.map_cons, List.map_cons, List.nodup_cons, hab] at hn
          exact absurd List.mem_cons_self hn.1

namespace Outline

variable {c : Content} {cs ds es fs ms : List Outline} {o : Outline}

/-- The place of an outline among its siblings: its group, and what it is sorted by there. -/
def slot (o : Outline) : Category × SortKey := (o.kind.category, o.sortKey)

theorem sorted_congr (h : ∀ k, cs.filter (·.sortKey = k) = ds.filter (·.sortKey = k)) :
    sorted cs = sorted ds := by
  refine eq_of_pairwise_of_filter (pairwise_sorted cs) (pairwise_sorted ds) fun k => ?_
  rw [filter_sorted, filter_sorted, h]

theorem catalogued_congr (h : ∀ s, es.filter (·.slot = s) = fs.filter (·.slot = s)) :
    catalogued es = catalogued fs := by
  rw [catalogued, catalogued]
  congr 1
  funext k
  refine sorted_congr fun key => ?_
  have hslot (l : List Outline) :
      (l.filter (·.kind.category = k)).filter (·.sortKey = key) = l.filter (·.slot = (k, key)) := by
    rw [List.filter_filter]
    refine List.filter_congr fun x _ => ?_
    rw [Bool.and_comm]
    simp [slot]
  rw [hslot, hslot, h]

theorem catalogued_eq_of_perm (hp : es.Perm fs) (hd : (es.map slot).Nodup) :
    catalogued es = catalogued fs :=
  catalogued_congr fun s => filter_eq_of_perm hp hd s

theorem folders_eq_of_perm (hp : es.Perm fs) (hd : (es.map slot).Nodup) : folders es = folders fs := by
  refine List.flatMap_congr fun v _ => ?_
  have hcatalogue : catalogued (ofVisibility v es) = catalogued (ofVisibility v fs) :=
    catalogued_eq_of_perm (hp.filter _) (hd.sublist ((List.filter_sublist).map slot))
  rw [hcatalogue]

@[simp] theorem kind_normal (o : Outline) : o.normal.kind = o.kind := by
  rw [normal, kind_arranged, kind_nested]

def instanceSide (ms : List Outline) : List Outline := ms.filter (!·.isSingletonMethod)

def singletonSide (ms : List Outline) : List Outline :=
  (folder (.scope .singleton) ((ms.filter isSingletonMethod).map clearSingleton)).map arranged

/-- What the children of a container become when they are in normal form themselves. -/
def assembled (ms : List Outline) : List Outline :=
  catalogued ((instanceSide ms).filter (·.kind.visibility? = none) ++ singletonSide ms ++
    folders (instanceSide ms))

theorem map_filter_kind {F : Outline → Outline} {p : Outline → Bool} (hp : ∀ x, p (F x) = p x) :
    (cs.map F).filter p = (cs.filter p).map F := by
  rw [List.filter_map]
  congr 2
  funext x
  exact hp x

theorem normal_leaf (h : Handle) (l : Leaf) (n : Notes) (cs : List Outline) :
    (node h (.leaf l) n cs).normal = node h (.leaf l) n cs := rfl

theorem normal_container (hc : c = .tree ∨ ∃ s, c = .scope s) (hcs : ∀ x ∈ cs, x.Plain) (h : Handle)
    (n : Notes) : (node h c n cs).normal = node h c n (assembled (cs.map normal)) := by
  have hsingle (x : Outline) : x.normal.isSingletonMethod = x.isSingletonMethod := by
    rw [isSingletonMethod, kind_normal, isSingletonMethod]
  have hinstance : instanceSide (cs.map normal) = (cs.filter (!·.isSingletonMethod)).map normal :=
    map_filter_kind fun x => by rw [hsingle]
  have hsingles : (cs.map normal).filter isSingletonMethod = cs.filter isSingletonMethod := by
    rw [map_filter_kind hsingle]
    refine (List.map_congr_left fun x hx => ?_).trans (List.map_id _)
    obtain ⟨h, m, n, ks, rfl⟩ := leaf_of_isSingletonMethod (List.mem_filter.mp hx).2
    rfl
  have hbody : (nestedChildren cs).filter (·.kind.visibility? = none) =
      ((cs.filter (!·.isSingletonMethod)).filter (·.kind.visibility? = none)).map nested ++
        folder (.scope .singleton) ((cs.filter isSingletonMethod).map clearSingleton) := by
    rw [nestedChildren, List.filter_append, map_filter_kind fun x => by rw [kind_nested]]
    congr 1
    rw [List.filter_eq_self]
    intro x hx
    rw [(mem_folder hx).2]
    rfl
  have hothers : others (nestedChildren cs) =
      (instanceSide (cs.map normal)).filter (·.kind.visibility? = none) ++
        singletonSide (cs.map normal) := by
    rw [others, hbody, List.map_append, List.map_map, hinstance,
      map_filter_kind fun x => by rw [kind_normal], singletonSide, hsingles]
    rfl
  have hvisible (v : Visibility) :
      ofVisibility v (nestedChildren cs) = ofVisibility v (instanceSide (cs.map normal)) := by
    have hscope : (folder (.scope .singleton) ((cs.filter isSingletonMethod).map clearSingleton)).filter
        (hasVisibility v) = [] := by
      rw [List.filter_eq_nil_iff]
      intro x hx
      rw [(mem_folder hx).2]
      rintro ⟨⟩
    rw [hinstance, ofVisibility, ofVisibility, nestedChildren, List.filter_append, hscope,
      List.append_nil, map_filter_kind fun x => by rw [hasVisibility, kind_nested, hasVisibility],
      map_filter_kind fun x => by rw [hasVisibility, kind_normal, hasVisibility]]
    refine List.map_congr_left fun x hx => ?_
    obtain ⟨h, l, n, ks, rfl⟩ := leaf_of_hasVisibility (List.mem_filter.mp hx).2
    rfl
  have hfolders : folders (nestedChildren cs) = folders (instanceSide (cs.map normal)) :=
    List.flatMap_congr fun v _ => by rw [hvisible]
  have hplain : ∀ x ∈ nestedChildren cs, x.Plain :=
    Plain.nestedChildren hcs fun x hx => (hcs x hx).nested
  rw [normal, nested_container hc, arranged_container hc hplain, entries, hothers, hfolders]
  rfl

theorem singletonSide_eq_of_perm (hms : ∀ x ∈ ms, x.isSingletonMethod = true → x.Plain)
    (hp : ms.Perm ds) (hd : (((ms.filter isSingletonMethod).map clearSingleton).map slot).Nodup) :
    singletonSide ms = singletonSide ds := by
  have hperm : ((ms.filter isSingletonMethod).map clearSingleton).Perm
      ((ds.filter isSingletonMethod).map clearSingleton) := (hp.filter _).map _
  have hleaf {l : List Outline} (hl : ∀ x ∈ l, x.isSingletonMethod = true → x.Plain) :
      ∀ x ∈ (l.filter isSingletonMethod).map clearSingleton, x.Plain ∧ x.kind.visibility? ≠ none := by
    intro x hx
    obtain ⟨y, hy, rfl⟩ := List.mem_map.mp hx
    obtain ⟨hy, hs⟩ := List.mem_filter.mp hy
    obtain ⟨h, m, n, rfl, -⟩ := (hl y hy hs).leaf_of_isSingletonMethod hs
    exact ⟨.leaf h _ n nofun, nofun⟩
  -- All of the members are methods, so they are all in visibility groups.
  have hscope {l : List Outline} (hl : ∀ x ∈ l, x.Plain ∧ x.kind.visibility? ≠ none) :
      (folder (.scope .singleton) l).map arranged =
        if l.isEmpty then [] else [node 0 (.scope .singleton) {} (catalogued (folders l))] := by
    have hnone : others l = [] := by
      rw [others, List.map_eq_nil_iff, List.filter_eq_nil_iff]
      intro x hx
      simpa using (hl x hx).2
    rw [folder]
    split
    · rfl
    · rw [List.map_singleton, arranged_container (.inr ⟨_, rfl⟩) fun x hx => (hl x hx).1, entries, hnone,
        List.nil_append]
  rw [singletonSide, singletonSide, hscope (hleaf hms), hscope (hleaf fun x hx => hms x (hp.mem_iff.mpr hx)),
    hperm.isEmpty_eq, folders_eq_of_perm hperm hd]

/-- The order of the children makes no difference if each slot is taken at most once, by a singleton
method as by anything else. -/
theorem assembled_eq_of_perm (hms : ∀ x ∈ ms, x.isSingletonMethod = true → x.Plain)
    (hp : ms.Perm ds) (hd : ((instanceSide ms).map slot).Nodup)
    (hs : (((ms.filter isSingletonMethod).map clearSingleton).map slot).Nodup) :
    assembled ms = assembled ds := by
  have hperm : (instanceSide ms).Perm (instanceSide ds) := hp.filter _
  rw [assembled, assembled, singletonSide_eq_of_perm hms hp hs, folders_eq_of_perm hperm hd]
  refine catalogued_congr fun s => ?_
  rw [List.filter_append, List.filter_append, List.filter_append, List.filter_append,
    filter_eq_of_perm (hperm.filter _) (hd.sublist ((List.filter_sublist).map slot))]

end Outline

end Reconcile
