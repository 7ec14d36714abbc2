import Reconcile.Proofs.Normal.Bodies

namespace Reconcile

open Outline

def Leaf.clearSingleton : Leaf → Leaf
  | .method m => .method { m with isSingleton := false }
  | l => l

namespace Outline

/-- What the first pass makes of an outline. -/
def nested (o : Outline) : Outline := Pass.nestSingletons.reworked o

def nestedChildren (cs : List Outline) : List Outline :=
  (cs.filter (!·.isSingletonMethod)).map nested ++
    folder (.scope .singleton) ((cs.filter isSingletonMethod).map clearSingleton)

variable {c : Content} {cs : List Outline} {o : Outline}

@[simp] theorem kind_nested (o : Outline) : o.nested.kind = o.kind := kind_rework o

theorem nested_container (hc : c = .tree ∨ ∃ s, c = .scope s) (h : Handle) (n : Notes) :
    (node h c n cs).nested = node h c n (nestedChildren cs) := by
  obtain ⟨hcont, -, hwithin⟩ := container_of_body hc
  have hfilter (p : Outline → Bool) (hp : ∀ x, p x.nested = p x) :
      (cs.map nested).filter p = (cs.filter p).map nested := by
    rw [List.filter_map]
    congr 2
    funext x
    exact hp x
  have hsingle (x : Outline) : x.nested.isSingletonMethod = x.isSingletonMethod := by
    rw [isSingletonMethod, kind_nested, isSingletonMethod]
  have hrule : Pass.nestSingletons.rule false c (cs.map nested) = nestedChildren cs := by
    have hleaves : (cs.filter isSingletonMethod).map nested = cs.filter isSingletonMethod := by
      refine (List.map_congr_left fun x hx => ?_).trans (List.map_id _)
      obtain ⟨h, m, n, ks, rfl⟩ := leaf_of_isSingletonMethod (List.mem_filter.mp hx).2
      rfl
    refine (gathered_eq _ _ _ _).trans ?_
    rw [hfilter _ fun x => by rw [hsingle], hfilter _ hsingle, hleaves, nestedChildren]
  rw [nested, Pass.reworked, rework_container hcont, hwithin]
  exact congrArg (node h c n) hrule

theorem mem_nestedChildren (ho : o ∈ nestedChildren cs) : (∃ x ∈ cs, o = x.nested) ∨
    o = node 0 (.scope .singleton) {} ((cs.filter isSingletonMethod).map clearSingleton) := by
  rcases List.mem_append.mp ho with ho | ho
  · obtain ⟨x, hx, rfl⟩ := List.mem_map.mp ho
    exact Or.inl ⟨x, (List.mem_filter.mp hx).1, rfl⟩
  · exact Or.inr (mem_folder ho).2

namespace Plain

theorem leaf_of_isSingletonMethod (ho : o.Plain) (hs : o.isSingletonMethod = true) :
    ∃ h m n, o = node h (.leaf (.method m)) n [] ∧ m.isSingleton = true := by
  cases ho with
  | tree | scope => cases hs
  | leaf h l n hm =>
      cases l with
      | method m => exact ⟨h, m, n, rfl, hs⟩
      | _ => cases hs

theorem nestedChildren (hcs : ∀ x ∈ cs, x.Plain) (ih : ∀ x ∈ cs, x.nested.Plain) :
    ∀ x ∈ nestedChildren cs, x.Plain := by
  intro x hx
  rcases mem_nestedChildren hx with ⟨y, hy, rfl⟩ | rfl
  · exact ih y hy
  · refine .scope 0 .singleton {} _ fun y hy => ?_
    obtain ⟨z, hz, rfl⟩ := List.mem_map.mp hy
    obtain ⟨hz, hs⟩ := List.mem_filter.mp hz
    obtain ⟨h, m, n, rfl, -⟩ := (hcs z hz).leaf_of_isSingletonMethod hs
    exact .leaf h _ n nofun

theorem nested (ho : o.Plain) : o.nested.Plain := by
  induction ho with
  | tree h n cs hcs ih =>
      rw [nested_container (.inl rfl)]
      exact .tree h n _ (nestedChildren hcs ih)
  | scope h s n cs hcs ih =>
      rw [nested_container (.inr ⟨s, rfl⟩)]
      exact .scope h s n _ (nestedChildren hcs ih)
  | leaf h l n hm => exact .leaf h l n hm

end Plain

theorem ownVisibilities_nestedChildren (cs : List Outline) :
    ownVisibilities (nestedChildren cs) = ownVisibilities cs := by
  have hscope (ms : List Outline) : ownVisibilities (folder (.scope .singleton) ms) = [] := by
    rw [folder]
    split <;> rfl
  have happend (as bs : List Outline) :
      ownVisibilities (as ++ bs) = ownVisibilities as ++ ownVisibilities bs := by
    simp [ownVisibilities]
  rw [nestedChildren, happend, hscope, List.append_nil]
  simp [ownVisibilities, List.filter_map, List.filterMap_map, Function.comp_def, isSingletonMethod,
    List.filter_filter]

theorem flatMap_nestedChildren {α : Type} {F : Outline → List α} (hcs : ∀ x ∈ cs, x.Plain)
    (hF : ∀ h l n, F (node h (.leaf l) n []) = []) : (nestedChildren cs).flatMap F =
      (cs.flatMap fun x => F x.nested) ++
        (folder (.scope .singleton) ((cs.filter isSingletonMethod).map clearSingleton)).flatMap F := by
  have hkey : ∀ x ∈ cs, F x.nested ≠ [] → x.isSingletonMethod = false := by
    intro x hx hne
    cases hs : x.isSingletonMethod with
    | false => rfl
    | true =>
        obtain ⟨h, m, n, rfl, -⟩ := (hcs x hx).leaf_of_isSingletonMethod hs
        exact absurd (hF h _ n) hne
  have hfilter : cs.filter (!·.isSingletonMethod) = cs.filter (·.isSingletonMethod = false) :=
    List.filter_congr fun x _ => by simp
  rw [nestedChildren, List.flatMap_append, List.flatMap_map, hfilter, flatMap_filter_key hkey,
    if_pos rfl]

theorem leaf_of_mem_singletons (hcs : ∀ x ∈ cs, x.Plain)
    (ho : o ∈ (cs.filter isSingletonMethod).map clearSingleton) :
    ∃ h l n, o = node h (.leaf l) n [] := by
  obtain ⟨x, hx, rfl⟩ := List.mem_map.mp ho
  obtain ⟨hx, hs⟩ := List.mem_filter.mp hx
  obtain ⟨h, m, n, rfl, -⟩ := (hcs x hx).leaf_of_isSingletonMethod hs
  exact ⟨h, _, n, rfl⟩

theorem flatMap_singletons {α : Type} {F : Outline → List α} (hcs : ∀ x ∈ cs, x.Plain)
    (hF : ∀ h l n, F (node h (.leaf l) n []) = []) :
    ((cs.filter isSingletonMethod).map clearSingleton).flatMap F = [] := by
  rw [List.flatMap_eq_nil_iff]
  intro x hx
  obtain ⟨h, l, n, rfl⟩ := leaf_of_mem_singletons hcs hx
  exact hF h l n

namespace Plain

theorem stretches_nestedChildren (hcs : ∀ x ∈ cs, x.Plain)
    (ih : ∀ x ∈ cs, x.nested.stretches = x.stretches) :
    (Outline.nestedChildren cs).flatMap stretches = cs.flatMap stretches := by
  have hscope (ms : List Outline) : (folder (.scope .singleton) ms).flatMap stretches = [] := by
    rw [folder]
    split <;> rfl
  rw [flatMap_nestedChildren hcs fun _ _ _ => rfl, hscope, List.append_nil, List.flatMap_congr ih]

theorem stretches_nested (ho : o.Plain) : o.nested.stretches = o.stretches := by
  induction ho with
  | tree h n cs hcs ih =>
      rw [nested_container (.inl rfl)]
      simp [stretches, ownVisibilities_nestedChildren, stretches_nestedChildren hcs ih]
  | scope h s n cs hcs ih =>
      rw [nested_container (.inr ⟨s, rfl⟩)]
      rfl
  | leaf => rfl

theorem bodies_nested (ho : o.Plain) :
    (∀ body ∈ o.nested.bodies, Ordered body) ↔ ∀ body ∈ o.bodies, Ordered body := by
  have children {cs : List Outline} (hcs : ∀ x ∈ cs, x.Plain) (ih : ∀ x ∈ cs,
      (∀ body ∈ x.nested.bodies, Ordered body) ↔ ∀ body ∈ x.bodies, Ordered body) :
      (∀ body ∈ (Outline.nestedChildren cs).flatMap bodies, Ordered body) ↔
        ∀ body ∈ cs.flatMap bodies, Ordered body := by
    have hscope : ∀ body ∈ (folder (.scope .singleton)
        ((cs.filter isSingletonMethod).map clearSingleton)).flatMap bodies, Ordered body := by
      intro body hbody
      obtain ⟨x, hx, hbody⟩ := List.mem_flatMap.mp hbody
      obtain ⟨-, rfl⟩ := mem_folder hx
      rw [bodies, stretchesOfAll_eq, bodiesOfAll_eq, flatMap_singletons hcs fun _ _ _ => rfl,
        flatMap_singletons hcs fun _ _ _ => rfl, List.mem_singleton] at hbody
      rw [hbody]
      exact List.pairwise_singleton _ _
    rw [flatMap_nestedChildren hcs fun _ _ _ => rfl, List.forall_mem_append, and_iff_left hscope,
      List.forall_mem_flatMap, List.forall_mem_flatMap]
    exact forall₂_congr ih
  induction ho with
  | tree h n cs hcs ih =>
      rw [nested_container (.inl rfl)]
      simpa [bodies] using children hcs ih
  | scope h s n cs hcs ih =>
      rw [nested_container (.inr ⟨s, rfl⟩), bodies, bodies, List.forall_mem_cons, List.forall_mem_cons,
        ownVisibilities_nestedChildren, stretchesOfAll_eq, stretchesOfAll_eq, bodiesOfAll_eq,
        bodiesOfAll_eq, stretches_nestedChildren hcs fun x hx => (hcs x hx).stretches_nested]
      exact and_congr_right fun _ => children hcs ih
  | leaf => rfl

theorem inOrder_nested (ho : o.Plain) : o.nested.InOrder ↔ o.InOrder := by
  rw [InOrder, InOrder, List.forall_mem_cons, List.forall_mem_cons, ho.stretches_nested, ho.bodies_nested]

theorem perm_nested (ho : o.Plain) (hs : o.isSingletonMethod = false) :
    o.nested.memberLeaves.Perm (o.memberLeaves.map Leaf.clearSingleton) := by
  have children {cs : List Outline} (hcs : ∀ x ∈ cs, x.Plain) (ih : ∀ x ∈ cs,
      x.isSingletonMethod = false → x.nested.memberLeaves.Perm (x.memberLeaves.map Leaf.clearSingleton)) :
      ((Outline.nestedChildren cs).flatMap memberLeaves).Perm
        ((cs.flatMap memberLeaves).map Leaf.clearSingleton) := by
    have hscope : (folder (.scope .singleton) ((cs.filter isSingletonMethod).map clearSingleton)).flatMap
        memberLeaves = (cs.filter isSingletonMethod).flatMap fun x =>
          x.memberLeaves.map Leaf.clearSingleton := by
      have hcleared : ∀ x ∈ cs.filter isSingletonMethod,
          x.clearSingleton.memberLeaves = x.memberLeaves.map Leaf.clearSingleton := by
        intro x hx
        obtain ⟨hx, hs⟩ := List.mem_filter.mp hx
        obtain ⟨h, m, n, rfl, -⟩ := (hcs x hx).leaf_of_isSingletonMethod hs
        rfl
      rw [flatMap_folder (memberLeaves_node 0 rfl {} _), List.flatMap_map, List.flatMap_congr hcleared]
    have hothers : ((cs.filter (!·.isSingletonMethod)).flatMap fun x => x.nested.memberLeaves).Perm
        ((cs.filter (!·.isSingletonMethod)).flatMap fun x => x.memberLeaves.map Leaf.clearSingleton) := by
      refine List.Perm.flatMap_left _ fun x hx => ?_
      obtain ⟨hx, hs⟩ := List.mem_filter.mp hx
      exact ih x hx (by simpa using hs)
    rw [Outline.nestedChildren, List.flatMap_append, List.flatMap_map, hscope, List.map_flatMap]
    refine (hothers.append_right _).trans ?_
    rw [← List.flatMap_append]
    exact (List.perm_append_comm.trans (List.filter_append_perm isSingletonMethod cs)).flatMap_right _
  induction ho with
  | tree h n cs hcs ih =>
      rw [nested_container (.inl rfl), memberLeaves_node h rfl, memberLeaves_node h rfl]
      exact children hcs ih
  | scope h s n cs hcs ih =>
      rw [nested_container (.inr ⟨s, rfl⟩), memberLeaves_node h rfl, memberLeaves_node h rfl]
      exact children hcs ih
  | leaf h l n hm =>
      have hl : l.clearSingleton = l := by
        cases l with
        | method m => exact congrArg Leaf.method (by cases m; cases hs; rfl)
        | _ => rfl
      have hmap : (node h (.leaf l) n []).memberLeaves.map Leaf.clearSingleton =
          (node h (.leaf l) n []).memberLeaves := by
        refine (List.map_congr_left fun x hx => ?_).trans (List.map_id _)
        have hx : x = l := by simpa [ownLeaf] using (List.mem_filter.mp hx).1
        rw [hx]
        exact hl
      rw [hmap]
      rfl

theorem perm_visibilities (cs : List Outline) : (cs.filter (·.kind.visibility? = none) ++
    Visibility.all.flatMap fun v => ofVisibility v cs).Perm cs := by
  have hall : ∀ x ∈ cs, x.kind.visibility? ∈ none :: Visibility.all.map some := by
    intro x _
    rcases x.kind.visibility? with _ | v
    · simp
    · cases v <;> simp [Visibility.all]
  have hkeys := perm_flatMap_filter (fun x : Outline => x.kind.visibility?) (by decide) hall
  rw [List.flatMap_cons, List.flatMap_map] at hkeys
  exact hkeys

theorem perm_arranged (ho : o.Plain) : o.arranged.memberLeaves.Perm o.memberLeaves := by
  have children {cs : List Outline} (ih : ∀ x ∈ cs, x.arranged.memberLeaves.Perm x.memberLeaves) :
      ((catalogued (entries cs)).flatMap memberLeaves).Perm (cs.flatMap memberLeaves) := by
    have hcatalogue (es : List Outline) :
        ((catalogued es).flatMap memberLeaves).Perm (es.flatMap memberLeaves) :=
      flatMap_catalogued (fun k cs => memberLeaves_node 0 rfl {} cs) es
    have hothers : ((others cs).flatMap memberLeaves).Perm
        ((cs.filter (·.kind.visibility? = none)).flatMap memberLeaves) := by
      rw [others, List.flatMap_map]
      exact List.Perm.flatMap_left _ fun x hx => ih x (List.mem_filter.mp hx).1
    have hfolders : ((folders cs).flatMap memberLeaves).Perm
        ((Visibility.all.flatMap fun v => ofVisibility v cs).flatMap memberLeaves) := by
      rw [folders, List.flatMap_assoc, List.flatMap_assoc]
      refine List.Perm.flatMap_left _ fun v _ => ?_
      rw [flatMap_folder (memberLeaves_node 0 rfl {} _)]
      exact hcatalogue _
    refine (hcatalogue _).trans ?_
    rw [entries, List.flatMap_append]
    refine (hothers.append hfolders).trans ?_
    rw [← List.flatMap_append]
    exact (perm_visibilities cs).flatMap_right memberLeaves
  induction ho with
  | tree h n cs hcs ih =>
      rw [arranged_container (.inl rfl) hcs, memberLeaves_node h rfl, memberLeaves_node h rfl]
      exact children ih
  | scope h s n cs hcs ih =>
      rw [arranged_container (.inr ⟨s, rfl⟩) hcs, memberLeaves_node h rfl, memberLeaves_node h rfl]
      exact children ih
  | leaf => exact .refl _

end Plain

end Outline

end Reconcile
