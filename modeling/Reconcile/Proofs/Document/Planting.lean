import Reconcile.Document.Build
import Reconcile.Proofs.Forest.Patch
import Reconcile.Proofs.Forest.Wrapping
import Reconcile.Proofs.Normal.Rework

namespace Reconcile

open Forest Outline

namespace Document

theorem Item.induction {P : Item → Prop} (tree : ∀ n items, (∀ i ∈ items, P i) → P (.tree n items))
    (scope : ∀ s n items, (∀ i ∈ items, P i) → P (.scope s n items)) (leaf : ∀ l n, P (.leaf l n))
    (i : Item) : P i :=
  @Item.rec P (fun items => ∀ i ∈ items, P i) tree scope leaf (by simp)
    (by intro i items hi hitems; simpa using ⟨hi, hitems⟩) i

mutual

def Item.sketch : Item → Outline
  | .tree n items => .node 0 .tree n (sketches items)
  | .scope s n items => .node 0 (.scope s) n (sketches items)
  | .leaf l n => .node 0 (.leaf l) n []

def sketches : List Item → List Outline
  | [] => []
  | i :: is => i.sketch :: sketches is

end

def sketch (items : List Item) : Outline := (Item.tree {} items).sketch

mutual

/-- An item and all that is in it, in document order. -/
def Item.preorder : Item → List Item
  | .tree n items => .tree n items :: preorderOfAll items
  | .scope s n items => .scope s n items :: preorderOfAll items
  | .leaf l n => [.leaf l n]

def preorderOfAll : List Item → List Item
  | [] => []
  | i :: is => i.preorder ++ preorderOfAll is

end

mutual

/-- The outline of an item, with the handles from `h` on in document order. -/
def Item.numbered (h : Handle) : Item → Outline
  | .tree n items => .node h .tree n (numberedAll (h + 1) items)
  | .scope s n items => .node h (.scope s) n (numberedAll (h + 1) items)
  | .leaf l n => .node h (.leaf l) n []

def numberedAll (h : Handle) : List Item → List Outline
  | [] => []
  | i :: is => i.numbered h :: numberedAll (h + i.preorder.length) is

end

variable {f : Forest} {parent : Option Handle} {h : Handle} {c : Content} {n : Notes}
  {cs : List Outline} {items : List Item}

@[simp] theorem sketches_eq (items : List Item) : sketches items = items.map Item.sketch := by
  induction items with
  | nil => rfl
  | cons i items ih => simp [sketches, ih]

theorem sound_sketch (i : Item) : i.sketch.sound = true := by
  induction i using Item.induction with
  | tree n items ih | scope s n items ih =>
      rw [Item.sketch, sketches_eq, sound_node, List.forall_mem_map]
      exact ⟨Or.inl rfl, ih⟩
  | leaf l n => rfl

theorem forget_numbered (i : Item) (h : Handle) : (i.numbered h).forget = i.sketch := by
  have all {items : List Item} (ih : ∀ i ∈ items, ∀ h, (i.numbered h).forget = i.sketch)
      (h : Handle) : (numberedAll h items).map forget = items.map Item.sketch := by
    induction items generalizing h with
    | nil => rfl
    | cons i items ihs =>
        rw [numberedAll, List.map_cons, List.map_cons, ih i List.mem_cons_self,
          ihs fun j hj => ih j (List.mem_cons_of_mem i hj)]
  induction i using Item.induction generalizing h with
  | tree n items ih | scope s n items ih =>
      rw [Item.numbered, forget_node, all ih, Item.sketch, sketches_eq]
  | leaf l n => rfl

theorem subtrees_numbered (i : Item) (h : Handle) :
    (i.numbered h).subtrees = i.preorder.mapIdx fun k j => j.numbered (h + k) := by
  have all {items : List Item} (ih : ∀ i ∈ items, ∀ h,
      (i.numbered h).subtrees = i.preorder.mapIdx fun k j => j.numbered (h + k)) (h : Handle) :
      (numberedAll h items).flatMap subtrees =
        (preorderOfAll items).mapIdx fun k j => j.numbered (h + k) := by
    induction items generalizing h with
    | nil => rfl
    | cons i items ihs =>
        rw [numberedAll, List.flatMap_cons, ih i List.mem_cons_self,
          ihs fun j hj => ih j (List.mem_cons_of_mem i hj), preorderOfAll, List.mapIdx_append]
        simp only [Nat.add_assoc, Nat.add_comm i.preorder.length]
  induction i using Item.induction generalizing h with
  | tree n items ih | scope s n items ih =>
      rw [Item.numbered, subtrees_node, all ih, Item.preorder, List.mapIdx_cons, Item.numbered]
      simp only [Nat.add_assoc, Nat.add_comm 1, Nat.add_zero]
  | leaf l n => rfl

theorem subtrees_numberedAll (items : List Item) (h : Handle) :
    (numberedAll (h + 1) items).flatMap subtrees =
      (preorderOfAll items).mapIdx fun k j => j.numbered (h + (k + 1)) := by
  have htree := subtrees_numbered (.tree {} items) h
  rw [Item.numbered, subtrees_node, Item.preorder, List.mapIdx_cons] at htree
  exact (List.cons.inj htree).2

@[simp] theorem handle_numbered (i : Item) (h : Handle) : (i.numbered h).handle = h := by
  cases i <;> rfl

theorem handles_numbered (i : Item) (h : Handle) :
    (i.numbered h).handles = List.range' h i.preorder.length := by
  rw [← map_handle_subtrees, subtrees_numbered]
  exact List.ext_getElem (by simp) (by simp)

theorem length_preorder (i : Item) (h : Handle) : i.preorder.length = (i.numbered h).handles.length := by
  rw [handles_numbered, List.length_range']

theorem look_grow {m : Node} (hm : f.look h = some m) (d : Content) (n : Notes) :
    (grow f h d n).look = Function.update (Function.update f.look h
      (some { m with children := m.children ++ [f.size] })) f.size (some ⟨.plain d, n, some h, []⟩) := by
  let f₁ := f.modify h fun n => { n with children := n.children ++ [f.size] }
  have hs : f₁.nodes.size = f.size := size_modify f h _
  have hl : f₁.look = Function.update f.look h (some { m with children := m.children ++ [f.size] }) :=
    look_modify hm _
  rw [← hl]
  funext k
  have hpush : (grow f h d n).look k = (f₁.nodes.push ⟨.plain d, n, some h, []⟩)[k]? := rfl
  rw [hpush, Array.getElem?_push, hs]
  by_cases hk : k = f.size
  · simp [hk]
  · rw [if_neg hk, Function.update_of_ne hk]
    rfl

theorem append_eq_grow {m : Node} (hm : f.look h = some m) (hc : m.kind.isContainer = true) (d : Content)
    (n : Notes) : f.append h d n = .ok (grow f h d n, f.size) := by
  obtain ⟨f', he, -, hl⟩ := append_spec hm hc d n
  have hsame : f'.nodes = (grow f h d n).nodes := by
    apply Array.ext_getElem?
    intro k
    exact congrFun (hl.trans (look_grow hm d n).symm) k
  rw [he]
  exact congrArg (fun nodes => Except.ok (Forest.mk nodes, f.size)) hsame

/-- Some outlines have been added at the end of the children of a container. -/
structure Planted (f f' : Forest) (parent : Option Handle) (h : Handle) (c : Content) (n : Notes)
    (cs news : List Outline) : Prop where
  patches : Patches f f' parent [.node h c n cs] [.node h c n (cs ++ news)]
  size : f'.size = f.size + (news.flatMap handles).length
  wellFormed : f.WellFormed → f'.WellFormed

theorem Planted.trans {f' f'' : Forest} {xs ys : List Outline} (hp : Planted f f' parent h c n cs xs)
    (hq : Planted f' f'' parent h c n (cs ++ xs) ys) : Planted f f'' parent h c n cs (xs ++ ys) where
  patches := by
    rw [← List.append_assoc]
    exact hp.patches.trans hq.patches
  size := by
    rw [hq.size, hp.size, List.flatMap_append, List.length_append, Nat.add_assoc]
  wellFormed hf := hq.wellFormed (hp.wellFormed hf)

theorem Planted.held {f' : Forest} {news : List Outline} (hp : Planted f f' parent h c n cs news) :
    (Outline.node h c n (cs ++ news)).Holds f'.look parent ∧
      (Outline.node h c n (cs ++ news)).handles.Nodup :=
  ⟨hp.patches.single.1, hp.patches.single.2.1⟩

theorem grow_planted (hx : (Outline.node h c n cs).Holds f.look parent)
    (hd : (Outline.node h c n cs).handles.Nodup) (hc : c.isContainer = true) (d : Content) (m : Notes) :
    Planted f (grow f h d m) parent h c n cs [.node f.size d m []] := by
  have hh := ((holds_node ..).mp hx).1
  obtain ⟨f', he, hs, hp⟩ := append_patches (d := d) (m := m) hx hd hc
  rw [append_eq_grow hh hc] at he
  cases he
  refine ⟨hp, hs, fun hf => ?_⟩
  obtain ⟨f', he, hf', -⟩ := hf.append (c := f.size) hh hc d m
  rw [append_eq_grow hh hc] at he
  cases he
  exact hf'

def Plants (plant : Handle → Forest → Forest) (news : Handle → List Outline) : Prop :=
  ∀ ⦃f : Forest⦄ ⦃parent : Option Handle⦄ ⦃h : Handle⦄ ⦃c : Content⦄ ⦃n : Notes⦄ ⦃cs : List Outline⦄,
    (Outline.node h c n cs).Holds f.look parent → (Outline.node h c n cs).handles.Nodup →
    c.isContainer = true → Planted f (plant h f) parent h c n cs (news f.size)

theorem plants_all (hitems : ∀ i ∈ items, Plants (fun h f => i.plant h f) fun k => [i.numbered k]) :
    Plants (fun h f => plantAll h f items) fun k => numberedAll k items := by
  intro f parent h c n cs hx hd hc
  induction items generalizing f cs with
  | nil =>
      refine ⟨?_, rfl, id⟩
      simpa [plantAll, numberedAll] using Patches.refl (by simpa using hx) (by simpa using hd)
  | cons i items ih =>
      have hp := hitems i List.mem_cons_self hx hd hc
      have hq := ih (fun j hj => hitems j (List.mem_cons_of_mem i hj)) hp.held.1 hp.held.2
      have hsize : (i.plant h f).size = f.size + i.preorder.length := by
        rw [hp.size, List.flatMap_singleton, ← length_preorder]
      rw [hsize] at hq
      exact hp.trans hq

theorem plants_container {d : Content} (hd : d.isContainer = true) (m : Notes)
    (hitems : ∀ i ∈ items, Plants (fun h f => i.plant h f) fun k => [i.numbered k]) :
    Plants (fun h f => plantAll f.size (grow f h d m) items)
      fun k => [.node k d m (numberedAll (k + 1) items)] := by
  intro f parent h c n cs hx hdup hc
  have hp := grow_planted hx hdup hc d m
  have hchild := ((holds_node ..).mp hp.held.1).2 (.node f.size d m []) (by simp)
  have hq := plants_all hitems hchild (by simp) hd
  have hsize : (grow f h d m).size = f.size + 1 := hp.size
  rw [hsize] at hq
  have hpatch : Patches (grow f h d m) (plantAll f.size (grow f h d m) items)
      (some (Frame.node h c n cs []).handle) [.node f.size d m []]
      [.node f.size d m (numberedAll (f.size + 1) items)] := hq.patches
  refine ⟨hp.patches.trans (hpatch.fill hp.held.1 hp.held.2), ?_, fun hf => hq.wellFormed (hp.wellFormed hf)⟩
  have hall : (plantAll f.size (grow f h d m) items).size =
      (grow f h d m).size + ((numberedAll (f.size + 1) items).flatMap handles).length := hq.size
  rw [List.flatMap_singleton, handles_node, List.length_cons, hall, hsize]
  omega

theorem plants_item (i : Item) : Plants (fun h f => i.plant h f) fun k => [i.numbered k] := by
  induction i using Item.induction with
  | tree n items ih =>
      simpa only [Item.plant, Item.numbered] using plants_container rfl n ih
  | scope s n items ih =>
      simpa only [Item.plant, Item.numbered] using plants_container rfl n ih
  | leaf l n =>
      intro f parent h c m cs hx hd hc
      exact grow_planted hx hd hc _ n

/-- The forest of a document is well-formed and shows the numbered outline of the document. -/
theorem shows_numbered (hf : build items = .ok f) : f.WellFormed ∧
    f.size = (preorderOfAll items).length + 1 ∧
      f.Shows ((Item.tree {} items).numbered Forest.root) := by
  have hplant : f = plantAll Forest.root .empty items := by
    rw [build] at hf
    split at hf
    · cases hf
    · exact (Except.ok.inj hf).symm
  have hroot : (Outline.node Forest.root .tree {} []).Holds Forest.empty.look none := by
    rw [holds_node]
    exact ⟨rfl, nofun⟩
  have hp := plants_all (fun i (_ : i ∈ items) => plants_item i) hroot (by simp) rfl
  have hlen := length_preorder (.tree {} items) Forest.root
  rw [Item.numbered, Item.preorder, handles_node, List.length_cons, List.length_cons] at hlen
  subst hplant
  refine ⟨hp.wellFormed (by decide), ?_, ⟨hp.held.1, hp.held.2, ?_, rfl, rfl⟩⟩
  · rw [hlen, Nat.add_comm]
    exact hp.size
  · rw [← sound_forget, forget_numbered]
    exact sound_sketch _

theorem exists_shows (hf : build items = .ok f) : ∃ o, f.Shows o ∧ o.forget = sketch items :=
  ⟨_, (shows_numbered hf).2.2, forget_numbered _ _⟩

end Document

end Reconcile
