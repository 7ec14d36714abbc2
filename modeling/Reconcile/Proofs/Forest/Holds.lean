import Mathlib.Data.List.Perm.Subperm
import Reconcile.Forest.Ancestry
import Reconcile.Proofs.Forest.Frame
import Reconcile.Proofs.Forest.Lookup

namespace Reconcile

variable {look look' : Handle → Option Node} {parent : Option Handle}

namespace Outline

mutual

/-- Each node of an outline is in a table, with the parent and the children that the outline gives it. -/
def Holds (look : Handle → Option Node) (parent : Option Handle) : Outline → Prop
  | node h content notes children =>
      look h = some ⟨.plain content, notes, parent, children.map handle⟩ ∧
        HoldsAll look (some h) children
  | conflict h form labels notes left right =>
      look h = some ⟨.conflict form labels left.handle right.handle, notes, parent, []⟩ ∧
        left.Holds look (some h) ∧ right.Holds look (some h)

def HoldsAll (look : Handle → Option Node) (parent : Option Handle) : List Outline → Prop
  | [] => True
  | o :: os => o.Holds look parent ∧ HoldsAll look parent os

end

@[simp] theorem holdsAll_iff (os : List Outline) :
    HoldsAll look parent os ↔ ∀ o ∈ os, o.Holds look parent := by
  induction os with
  | nil => simp [HoldsAll]
  | cons o os ih => simp [HoldsAll, ih]

@[simp] theorem holds_node (h : Handle) (c : Content) (n : Notes) (cs : List Outline) :
    (node h c n cs).Holds look parent ↔
      look h = some ⟨.plain c, n, parent, cs.map handle⟩ ∧ ∀ o ∈ cs, o.Holds look (some h) := by
  simp [Holds]

@[simp] theorem holds_conflict (h : Handle) (form : ConflictForm) (labels : Labels) (n : Notes)
    (l r : Outline) : (conflict h form labels n l r).Holds look parent ↔
      look h = some ⟨.conflict form labels l.handle r.handle, n, parent, []⟩ ∧
        l.Holds look (some h) ∧ r.Holds look (some h) := by
  simp [Holds]

theorem Holds.congr {o : Outline} (ho : o.Holds look parent)
    (h : ∀ k ∈ o.handles, look' k = look k) : o.Holds look' parent := by
  induction o generalizing parent with
  | node k c n cs ih =>
      rw [holds_node] at ho ⊢
      simp only [handles_node, List.mem_cons, List.mem_flatMap] at h
      refine ⟨by rw [h k (Or.inl rfl), ho.1], ?_⟩
      intro o hm
      exact ih o hm (ho.2 o hm) fun x hx => h x (Or.inr ⟨o, hm, hx⟩)
  | conflict k form labels n l r ihl ihr =>
      rw [holds_conflict] at ho ⊢
      simp only [handles_conflict, List.mem_cons, List.mem_append] at h
      exact ⟨by rw [h k (Or.inl rfl), ho.1], ihl ho.2.1 fun x hx => h x (Or.inr (Or.inl hx)),
        ihr ho.2.2 fun x hx => h x (Or.inr (Or.inr hx))⟩

theorem Holds.look_handle {o : Outline} (ho : o.Holds look parent) :
    ∃ n, look o.handle = some n ∧ n.parent = parent := by
  cases o with
  | node => exact ⟨_, ((holds_node ..).mp ho).1, rfl⟩
  | conflict => exact ⟨_, ((holds_conflict ..).mp ho).1, rfl⟩

theorem Holds.reparent {o : Outline} (ho : o.Holds look parent) (hd : o.handles.Nodup) {n : Node}
    {p : Option Handle} (hn : look o.handle = some n) (hn' : look' o.handle = some { n with parent := p })
    (h : ∀ k ∈ o.handles, k ≠ o.handle → look' k = look k) : o.Holds look' p := by
  have below {os : List Outline} (hos : ∀ x ∈ os, x.Holds look (some o.handle))
      (he : o.handles = o.handle :: os.flatMap handles) : ∀ x ∈ os, x.Holds look' (some o.handle) := by
    intro x hx
    apply (hos x hx).congr
    intro k hk
    have hm : k ∈ os.flatMap handles := List.mem_flatMap.mpr ⟨x, hx, hk⟩
    rw [he] at hd h
    refine h k (List.mem_cons_of_mem _ hm) ?_
    rintro rfl
    exact (List.nodup_cons.mp hd).1 hm
  cases o with
  | node k c m cs =>
      rw [holds_node] at ho ⊢
      cases ho.1.symm.trans hn
      exact ⟨hn', below ho.2 (by simp)⟩
  | conflict k form labels m l r =>
      rw [holds_conflict] at ho ⊢
      cases ho.1.symm.trans hn
      have hsides := @below [l, r] (by simpa using ho.2) (by simp)
      exact ⟨hn', hsides l (by simp), hsides r (by simp)⟩

theorem Holds.known {o : Outline} (ho : o.Holds look parent) {k : Handle} (hk : k ∈ o.handles) :
    ∃ n, look k = some n := by
  induction o generalizing parent with
  | node h c n cs ih =>
      rw [holds_node] at ho
      simp only [handles_node, List.mem_cons, List.mem_flatMap] at hk
      rcases hk with rfl | ⟨o, hm, hk⟩
      · exact ⟨_, ho.1⟩
      · exact ih o hm (ho.2 o hm) hk
  | conflict h form labels n l r ihl ihr =>
      rw [holds_conflict] at ho
      simp only [handles_conflict, List.mem_cons, List.mem_append] at hk
      rcases hk with rfl | hk | hk
      · exact ⟨_, ho.1⟩
      · exact ihl ho.2.1 hk
      · exact ihr ho.2.2 hk

/-- What is in an outline is held below some parent, of which one may know what holds of the parent
at the top and of all parents that are in the outline. -/
theorem Holds.of_mem_subtrees_of {P : Option Handle → Prop} (hP : ∀ h, P (some h)) {o x : Outline}
    (ho : o.Holds look parent) (hparent : P parent) (hx : x ∈ o.subtrees) :
    ∃ p, P p ∧ x.Holds look p := by
  induction o generalizing parent with
  | node h c n cs ih =>
      rw [subtrees_node, List.mem_cons, List.mem_flatMap] at hx
      rcases hx with rfl | ⟨z, hz, hx⟩
      · exact ⟨parent, hparent, ho⟩
      · exact ih z hz (((holds_node ..).mp ho).2 z hz) (hP h) hx
  | conflict h form labels n l r ihl ihr =>
      rw [subtrees_conflict, List.mem_cons, List.mem_append] at hx
      obtain ⟨-, hl, hr⟩ := (holds_conflict ..).mp ho
      rcases hx with rfl | hx | hx
      · exact ⟨parent, hparent, ho⟩
      · exact ihl hl (hP h) hx
      · exact ihr hr (hP h) hx

theorem Holds.of_mem_subtrees {o x : Outline} (ho : o.Holds look parent) (hx : x ∈ o.subtrees) :
    ∃ p, x.Holds look p := by
  obtain ⟨p, -, hp⟩ := ho.of_mem_subtrees_of (P := fun _ => True) (fun _ => trivial) trivial hx
  exact ⟨p, hp⟩

theorem Holds.of_mem_below {h : Handle} {c : Content} {n : Notes} {cs : List Outline} {x : Outline}
    (ho : (node h c n cs).Holds look parent) (hx : x ∈ cs.flatMap subtrees) :
    ∃ p, x.Holds look (some p) := by
  obtain ⟨z, hz, hx⟩ := List.mem_flatMap.mp hx
  obtain ⟨p, hp, hx⟩ := (((holds_node ..).mp ho).2 z hz).of_mem_subtrees_of
    (P := fun p => p.isSome) (fun _ => rfl) rfl hx
  obtain ⟨p, rfl⟩ := Option.isSome_iff_exists.mp hp
  exact ⟨p, hx⟩

theorem Holds.lt_size {f : Forest} {o : Outline} (ho : o.Holds f.look parent) {k : Handle}
    (hk : k ∈ o.handles) : k < f.size := by
  obtain ⟨n, hn⟩ := ho.known hk
  exact Forest.look_lt hn

theorem Holds.length_le {f : Forest} {o : Outline} (ho : o.Holds f.look parent)
    (hd : o.handles.Nodup) : o.handles.length ≤ f.size := by
  have hs : o.handles ⊆ List.range f.size := fun k hk => List.mem_range.mpr (ho.lt_size hk)
  simpa using (List.subperm_of_subset hd hs).length_le

end Outline

namespace Frame

/-- The node of a frame when the handle `hole` is in its hole. -/
def nodeAround (parent : Option Handle) (hole : Handle) : Frame → Node
  | node _ content notes before after =>
      ⟨.plain content, notes, parent,
        before.map Outline.handle ++ hole :: after.map Outline.handle⟩
  | left _ form labels notes right =>
      ⟨.conflict form labels hole right.handle, notes, parent, []⟩

def Holds (look : Handle → Option Node) (parent : Option Handle) (hole : Handle) (fr : Frame) : Prop :=
  look fr.handle = some (fr.nodeAround parent hole) ∧
    ∀ o ∈ fr.siblings, o.Holds look (some fr.handle)

theorem holds_fill (fr : Frame) (o : Outline) : (fr.fill o).Holds look parent ↔
    fr.Holds look parent o.handle ∧ o.Holds look (some fr.handle) := by
  cases fr with
  | node h c n before after =>
      simp only [fill, Outline.holds_node, Holds, handle, nodeAround, siblings, List.map_append,
        List.map_cons, List.mem_append, List.mem_cons]
      grind
  | left h form labels n r =>
      simp only [fill, Outline.holds_conflict, Holds, handle, nodeAround, siblings,
        List.mem_singleton, forall_eq]
      tauto

end Frame

def parentOf (parent : Option Handle) : List Frame → Option Handle
  | [] => parent
  | fr :: _ => some fr.handle

/-- A table holds all of a way down, with the handle `hole` in its hole. -/
def HoldsPath (look : Handle → Option Node) (parent : Option Handle) : Handle → List Frame → Prop
  | _, [] => True
  | hole, fr :: path =>
      fr.Holds look (parentOf parent path) hole ∧ HoldsPath look parent fr.handle path

theorem holds_plug (path : List Frame) (o : Outline) : (o.plug path).Holds look parent ↔
    HoldsPath look parent o.handle path ∧ o.Holds look (parentOf parent path) := by
  induction path generalizing o with
  | nil => simp [Outline.plug, HoldsPath, parentOf]
  | cons fr path ih =>
      rw [Outline.plug, ih, fr.holds_fill, fr.handle_fill]
      simp only [HoldsPath, parentOf]
      tauto

namespace Forest

variable {f : Forest} {o : Outline} {path : List Frame} {h : Handle}

theorem mapM_handles {α : Type} {g : Handle → Except Fault α} {r : Outline → α} {os : List Outline}
    (hg : ∀ o ∈ os, g o.handle = .ok (r o)) : (os.map Outline.handle).mapM g = .ok (os.map r) := by
  induction os with
  | nil => rfl
  | cons o os ih =>
      rw [List.map_cons, List.mapM_cons, hg o (by simp), ih fun x hx => hg x (by simp [hx])]
      rfl

theorem outlineWithin_of_holds (ho : o.Holds f.look parent) {depth : Nat}
    (hd : o.handles.length ≤ depth) : f.outlineWithin depth o.handle = .ok o := by
  induction o generalizing parent depth with
  | node h c n cs ih =>
      rw [Outline.holds_node] at ho
      rw [Outline.handles_node, List.length_cons] at hd
      obtain ⟨depth, rfl⟩ : ∃ d, depth = d + 1 := ⟨depth - 1, by omega⟩
      have hcs : (cs.map Outline.handle).mapM (f.outlineWithin depth) = .ok (cs.map id) := by
        apply mapM_handles
        intro o hm
        have hle := Outline.length_handles_le hm
        exact ih o hm (ho.2 o hm) (by omega)
      rw [List.map_id] at hcs
      simp only [outlineWithin, Outline.handle_node, get_of_look ho.1, bind, Except.bind, hcs]
      rfl
  | conflict h form labels n l r ihl ihr =>
      rw [Outline.holds_conflict] at ho
      rw [Outline.handles_conflict, List.length_cons, List.length_append] at hd
      obtain ⟨depth, rfl⟩ : ∃ d, depth = d + 1 := ⟨depth - 1, by omega⟩
      have hl := ihl ho.2.1 (show l.handles.length ≤ depth by omega)
      have hr := ihr ho.2.2 (show r.handles.length ≤ depth by omega)
      simp only [outlineWithin, Outline.handle_conflict, get_of_look ho.1, bind, Except.bind, hl, hr]
      rfl

/-- What a forest holds can be read back from it. -/
theorem outline_of_holds (ho : o.Holds f.look parent) (hd : o.handles.Nodup) :
    f.outline o.handle = .ok o :=
  outlineWithin_of_holds ho (ho.length_le hd)

theorem ancestorsWithin_of_holds (hp : HoldsPath f.look none h path)
    (hn : ∃ n, f.look h = some n ∧ n.parent = parentOf none path) {length : Nat}
    (hl : path.length < length) : f.ancestorsWithin length h = .ok (path.map Frame.handle) := by
  induction path generalizing h length with
  | nil =>
      obtain ⟨n, hn, hpar⟩ := hn
      obtain ⟨length, rfl⟩ : ∃ l, length = l + 1 := ⟨length - 1, by omega⟩
      simp only [ancestorsWithin, get_of_look hn, bind, Except.bind, hpar, parentOf]
      rfl
  | cons fr path ih =>
      obtain ⟨n, hn, hpar⟩ := hn
      rw [List.length_cons] at hl
      obtain ⟨length, rfl⟩ : ∃ l, length = l + 1 := ⟨length - 1, by omega⟩
      have hup := ih hp.2 ⟨_, hp.1.1, by cases fr <;> rfl⟩ (show path.length < length by omega)
      simp only [ancestorsWithin, get_of_look hn, bind, Except.bind, hpar, parentOf, hup]
      rfl

theorem length_le_pathHandles (path : List Frame) : path.length ≤ (pathHandles path).length := by
  induction path with
  | nil => simp
  | cons fr path ih =>
      rw [pathHandles, List.flatMap_cons, List.length_append, Frame.handles]
      simp only [List.length_cons]
      rw [pathHandles] at ih
      omega

theorem length_path_lt (ho : (o.plug path).Holds f.look none) (hd : (o.plug path).handles.Nodup) :
    path.length < f.size := by
  have hle := ho.length_le hd
  rw [(o.handles_plug path).length_eq, List.length_append] at hle
  have hpath := length_le_pathHandles path
  have ho' : 1 ≤ o.handles.length := by simp [Outline.handles]
  omega

/-- The scopes around a node are those on the way down to it. -/
theorem enclosingScopes_of_holds (ho : (o.plug path).Holds f.look none)
    (hd : (o.plug path).handles.Nodup) : f.enclosingScopes o.handle =
      .ok (path.filterMap fun fr => fr.scope?.map (fr.handle, ·)) := by
  have hlt := length_path_lt ho hd
  rw [holds_plug] at ho
  have hanc : f.ancestors o.handle = .ok (path.map Frame.handle) :=
    ancestorsWithin_of_holds ho.1 ho.2.look_handle hlt
  have hkinds : ∀ {hole : Handle} {path : List Frame}, HoldsPath f.look none hole path →
      ∃ ks, f.kinds (path.map Frame.handle) = .ok ks ∧
        ks.filterMap (fun p => p.2.scope?.map (p.1, ·)) =
          path.filterMap fun fr => fr.scope?.map (fr.handle, ·) := by
    intro hole path hp
    induction path generalizing hole with
    | nil => exact ⟨[], rfl, rfl⟩
    | cons fr path ih =>
        obtain ⟨ks, hks, he⟩ := ih hp.2
        refine ⟨(fr.handle, (fr.nodeAround (parentOf none path) hole).kind) :: ks, ?_, ?_⟩
        · rw [kinds] at hks ⊢
          rw [List.map_cons, List.mapM_cons, kind_of_look hp.1.1, hks]
          rfl
        · have hs : (fr.nodeAround (parentOf none path) hole).kind.scope? = fr.scope? := by
            cases fr <;> rfl
          simp only [List.filterMap_cons, hs, he]
  obtain ⟨ks, hks, he⟩ := hkinds ho.1
  simp only [enclosingScopes, hanc, bind, Except.bind, hks, ← he]
  rfl

theorem foldr_scopes (path : List Frame) (outer : String) :
    (path.filterMap fun fr => fr.scope?.map (fr.handle, ·)).foldr (fun s name => s.2.qualify name)
      outer = pathName outer path := by
  induction path with
  | nil => rfl
  | cons fr path ih =>
      rw [pathName, List.foldr_cons, ← pathName, ← ih, List.filterMap_cons]
      cases fr with
      | left => rfl
      | node h c n before after => cases c <;> rfl

theorem enclosingName_of_holds (ho : (o.plug path).Holds f.look none)
    (hd : (o.plug path).handles.Nodup) : f.enclosingName o.handle = .ok (pathName "" path) := by
  simp only [enclosingName, enclosingScopes_of_holds ho hd, bind, Except.bind, ← foldr_scopes]
  rfl

end Forest

end Reconcile
