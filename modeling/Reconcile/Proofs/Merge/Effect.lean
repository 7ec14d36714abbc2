import Reconcile.Proofs.Forest.Patch
import Reconcile.Proofs.Merge.Valid

namespace Reconcile.Merge

open Outline (plug)
open Function (update_of_ne update_self)

variable {f f' : Forest} {parent : Option Handle} {x y : Outline} {labels : Labels} {adds : Bool}
  {j : Nat} {h q : Handle} {c d : Content} {n m : Notes} {cs before after : List Outline}

theorem Edit.patches (he : Edit labels f.size adds j x y) (hx : x.Holds f.look parent)
    (hd : x.handles.Nodup) (hs : f'.size = f.size + j) (hy : y.Holds f'.look parent)
    (hf : ∀ k < f.size, k ∉ x.handles → f'.look k = f.look k) :
    Patches f f' parent [x] [y] where
  holds := by simpa using hy
  handles := by simpa using he.handle_eq
  size := by omega
  frame := by simpa using hf
  nodup := by
    rw [List.flatMap_singleton, he.handles.nodup_iff, List.nodup_append']
    refine ⟨hd, List.nodup_range', ?_⟩
    intro k hold hnew
    exact Nat.not_lt.mpr (List.mem_range'_1.mp hnew).1 (hx.lt_size hold)
  fresh := by
    intro k hk
    rw [List.flatMap_singleton, he.handles.mem_iff, List.mem_append, List.mem_range'_1] at hk
    rw [List.flatMap_singleton]
    exact hk.imp_right And.left

theorem nodup_fill {fr : Frame} (hd : (fr.fill x).handles.Nodup) :
    fr.handles.Nodup ∧ x.handles.Nodup ∧ fr.handles.Disjoint x.handles := by
  rwa [(fr.handles_fill x).nodup_iff, List.nodup_append'] at hd

/-- An outline fills a frame in a forest, and no node is in two places. -/
structure Fills (f : Forest) (parent : Option Handle) (fr : Frame) (x : Outline) : Prop where
  frame : fr.Holds f.look parent x.handle
  child : x.Holds f.look (some fr.handle)
  nodup : fr.handles.Nodup
  childNodup : x.handles.Nodup
  apart : fr.handles.Disjoint x.handles

theorem fills {fr : Frame} (hx : (fr.fill x).Holds f.look parent) (hd : (fr.fill x).handles.Nodup) :
    Fills f parent fr x := by
  obtain ⟨hfr, hchild⟩ := (fr.holds_fill x).mp hx
  obtain ⟨hn, hdx, hdis⟩ := nodup_fill hd
  exact ⟨hfr, hchild, hn, hdx, hdis⟩

namespace Fills

variable {fr : Frame}

theorem ne (hs : Fills f parent fr x) : fr.handle ≠ x.handle := fun he =>
  hs.apart List.mem_cons_self (he ▸ x.handle_mem_handles)

theorem not_mem (hs : Fills f parent fr x) : fr.handle ∉ x.handles := hs.apart List.mem_cons_self

theorem not_mem_siblings (hs : Fills f parent fr x) : x.handle ∉ fr.siblings.map Outline.handle := by
  intro hm
  obtain ⟨o, ho, he⟩ := List.mem_map.mp hm
  refine hs.apart ?_ x.handle_mem_handles
  exact List.mem_cons_of_mem _ (List.mem_flatMap.mpr ⟨o, ho, he ▸ o.handle_mem_handles⟩)

theorem lt_size (hs : Fills f parent fr x) : ∀ k ∈ fr.handles, k < f.size := by
  intro k hk
  rcases List.mem_cons.mp hk with rfl | hk
  · exact Forest.look_lt hs.frame.1
  · obtain ⟨o, ho, hk⟩ := List.mem_flatMap.mp hk
    exact (hs.frame.2 o ho).lt_size hk

theorem siblings (hs : Fills f parent fr x)
    (old : ∀ k < f.size, k ≠ fr.handle → k ≠ x.handle → f'.look k = f.look k) :
    ∀ o ∈ fr.siblings, o.Holds f'.look (some fr.handle) := by
  intro o ho
  apply (hs.frame.2 o ho).congr
  intro k hk
  have hm : k ∈ fr.siblings.flatMap Outline.handles := List.mem_flatMap.mpr ⟨o, ho, hk⟩
  refine old k ((hs.frame.2 o ho).lt_size hk) ?_ ?_
  · rintro rfl
    exact (List.nodup_cons.mp hs.nodup).1 hm
  · rintro rfl
    exact hs.apart (List.mem_cons_of_mem _ hm) x.handle_mem_handles

end Fills

theorem anchor_of_look {p : Handle} {a b : Node} (hh : f.look h = some a) (ha : a.parent = some p)
    (hp : f.look p = some b) : f.anchor h = .ok (if b.kind.isHeaderConflict then p else h) := by
  simp only [Forest.anchor, Forest.parent_of_look hh, ha, Forest.kind_of_look hp, bind, Except.bind]
  rfl

theorem enclosingConflict_of_look {p : Handle} {a b : Node} (hh : f.look h = some a)
    (ha : a.parent = some p) (hp : f.look p = some b)
    (hb : ∀ k, b.parent = some k → ∃ n, f.look k = some n ∧
      ∀ labels left right, n.kind ≠ .conflict .declarations labels left right) :
    f.enclosingConflict h = .ok none := by
  simp only [Forest.enclosingConflict, Forest.parent_of_look hh, ha, Forest.parent_of_look hp, bind,
    Except.bind]
  cases hk : b.parent with
  | none => rfl
  | some k =>
      obtain ⟨n, hn, hne⟩ := hb k hk
      simp only [Forest.kind_of_look hn]
      rfl

theorem contest_patches {t : Scope} (s : Scope) (m' : Notes) (hc : c.isContainer = true)
    (hx : (Outline.node q c n (before ++ .node h (.scope t) m cs :: after)).Holds f.look parent)
    (hd : (Outline.node q c n (before ++ .node h (.scope t) m cs :: after)).handles.Nodup) :
    ∃ f₁ f₂, f.create (.plain (.scope s)) m' = (f₁, f.size) ∧ f₁.anchor h = .ok h ∧
      f₁.wrapHeaders h f.size labels = .ok (f₂, f.size + 1) ∧ f₂.size = f.size + 2 ∧
      Patches f f₂ parent [.node q c n (before ++ .node h (.scope t) m cs :: after)]
        [.node q c n (before ++ .conflict (f.size + 1) .headers labels {} (.node h (.scope t) m cs)
          (.node f.size (.scope s) m' []) :: after)] := by
  have hs : Fills f parent (.node q c n before after) (.node h (.scope t) m cs) := fills hx hd
  have hq : f.look q = some ⟨.plain c, n, parent,
    before.map Outline.handle ++ h :: after.map Outline.handle⟩ := hs.frame.1
  obtain ⟨hl, hcs⟩ := (Outline.holds_node ..).mp hs.child
  change f.look h = some ⟨.plain (.scope t), m, some q, cs.map Outline.handle⟩ at hl
  have hqf : q ≠ f.size := Nat.ne_of_lt (Forest.look_lt hq)
  have hhf : h ≠ f.size := Nat.ne_of_lt (Forest.look_lt hl)
  have hqh : q ≠ h := hs.ne
  have hsib := hs.not_mem_siblings
  simp only [Frame.siblings, List.map_append, List.mem_append, not_or, Outline.handle_node] at hsib
  obtain ⟨f₁, he₁, hs₁, hl₁⟩ := Forest.create_spec f (.plain (.scope s)) m'
  have hq₁ := (Forest.look_old hl₁ q (Forest.look_lt hq)).trans hq
  have hh₁ := (Forest.look_old hl₁ h (Forest.look_lt hl)).trans hl
  have hnew₁ : f₁.look f.size = some ⟨.plain (.scope s), m', none, []⟩ := by rw [hl₁, update_self]
  obtain ⟨f₂, he₂, hs₂, hl₂⟩ := Forest.wrapHeaders_spec labels hh₁ rfl hq₁ hc rfl hsib.1 hsib.2
    hnew₁ rfl hqh hqf (Ne.symm hhf)
  rw [hs₁] at he₂ hl₂
  have old : ∀ k < f.size, k ≠ q → k ≠ h → f₂.look k = f.look k := by
    intro k hk hkq hkh
    rw [hl₂, update_of_ne (Nat.ne_of_lt hk), update_of_ne hkh,
      update_of_ne (Nat.ne_of_lt (Nat.lt_succ_of_lt hk)), update_of_ne hkq, Forest.look_old hl₁ k hk]
  refine ⟨f₁, f₂, he₁, anchor_of_look hh₁ rfl hq₁, he₂, by omega, ?_⟩
  refine (Edit.contest q c n before after h t m cs s m').patches hx hd (by omega) ?_ ?_
  · refine ((Frame.node q c n before after).holds_fill _).mpr ⟨⟨?_, hs.siblings old⟩, ?_⟩
    · simp [hl₂, hqf, hqh, Frame.handle, Frame.nodeAround, Nat.ne_of_lt (Nat.lt_succ_of_lt (Forest.look_lt hq))]
    · rw [Outline.holds_conflict, Outline.holds_node, Outline.holds_node]
      refine ⟨?_, ⟨?_, ?_⟩, ?_, by simp⟩
      · simp [hl₂, Frame.handle, Nat.ne_of_gt (Nat.lt_succ_of_lt (Forest.look_lt hl))]
      · simp [hl₂, hhf]
      · intro o ho
        apply (hcs o ho).congr
        intro k hk
        have hkx : k ∈ cs.flatMap Outline.handles := List.mem_flatMap.mpr ⟨o, ho, hk⟩
        have hdx := List.nodup_cons.mp (Outline.handles_node .. ▸ hs.childNodup)
        refine old k ((hcs o ho).lt_size hk) ?_ fun he => hdx.1 (he ▸ hkx)
        rintro rfl
        exact hs.not_mem (by simp [Frame.handle, hkx])
      · simp [hl₂]
  · intro k hk hn
    refine old k hk (fun he => hn ?_) fun he => hn ?_
    · simp [he]
    · simp [he]

theorem join_patches {old : Labels} {left : Outline} {r : Handle} {rs : List Outline} (l : Leaf)
    (m' : Notes)
    (hx : (Outline.conflict q .declarations old n left (.node r .tree m rs)).Holds f.look parent)
    (hd : (Outline.conflict q .declarations old n left (.node r .tree m rs)).handles.Nodup) :
    ∃ f₁ f₂, f.create (.plain (.leaf l)) m' = (f₁, f.size) ∧ f₁.rightSide q = .ok r ∧
      f₁.attach r f.size = .ok f₂ ∧ f₂.size = f.size + 1 ∧
      Patches f f₂ parent [.conflict q .declarations old n left (.node r .tree m rs)]
        [.conflict q .declarations old n left
          (.node r .tree m (rs ++ [.node f.size (.leaf l) m' []]))] := by
  obtain ⟨hq, hleft, hright⟩ := (Outline.holds_conflict ..).mp hx
  have hd' := (List.nodup_cons.mp (Outline.handles_conflict .. ▸ hd)).2
  have hdr := (List.nodup_append'.mp hd').2.1
  obtain ⟨f₂, he, hs, hp⟩ := Forest.append_patches (d := .leaf l) (m := m') hright hdr rfl
  obtain ⟨f₁, he₁, hs₁, hl₁⟩ := Forest.create_spec f (.plain (.leaf l)) m'
  have hq₁ := (Forest.look_old hl₁ q (Forest.look_lt hq)).trans hq
  refine ⟨f₁, f₂, he₁, ?_, ?_, hs, ?_⟩
  · simp only [Forest.rightSide, Forest.kind_of_look hq₁, bind, Except.bind]
    rfl
  · simp only [Forest.append, he₁, bind, Except.bind] at he
    cases ha : f₁.attach r f.size with
    | error e => simp [ha] at he
    | ok f' =>
        simp only [ha] at he
        cases he
        rfl
  · have hsides : ∀ o ∈ [left, .node r .tree m rs], o.Holds f.look (some q) := by
      intro o ho
      rcases List.mem_pair.mp ho with rfl | rfl
      · exact hleft
      · exact hright
    exact (@Patches.among f f₂ (some q) _ _ [left] [] hp hsides (by simpa using hd')).conflict hx hd

theorem oppose_patches {l : Leaf} {m : Notes} (hc : c.isContainer = true)
    (hx : (Outline.node q c n (before ++ x :: after)).Holds f.look parent)
    (hd : (Outline.node q c n (before ++ x :: after)).handles.Nodup) :
    ∃ f₁ f₂ f₃, f.create (.plain (.leaf l)) m = (f₁, f.size) ∧
      f₁.wrapDeclarations x.handle labels = .ok (f₂, f.size + 3) ∧
      f₂.rightSide (f.size + 3) = .ok (f.size + 2) ∧ f₂.attach (f.size + 2) f.size = .ok f₃ ∧
      f₃.size = f.size + 4 ∧ Patches f f₃ parent [.node q c n (before ++ x :: after)]
        [.node q c n (before ++ .conflict (f.size + 3) .declarations labels {}
          (.node (f.size + 1) .tree {} [x]) (.node (f.size + 2) .tree {} [.node f.size (.leaf l) m []])
          :: after)] := by
  have hs : Fills f parent (.node q c n before after) x := fills hx hd
  have hq : f.look q = some ⟨.plain c, n, parent,
    before.map Outline.handle ++ x.handle :: after.map Outline.handle⟩ := hs.frame.1
  obtain ⟨a, hl, ha⟩ := hs.child.look_handle
  change a.parent = some q at ha
  have hqx : q ≠ x.handle := hs.ne
  have hsib := hs.not_mem_siblings
  simp only [Frame.siblings, List.map_append, List.mem_append, not_or] at hsib
  have new : ∀ k < f.size, k ≠ f.size ∧ k ≠ f.size + 1 ∧ k ≠ f.size + 2 ∧ k ≠ f.size + 3 := by
    intro k hk
    omega
  have hqn := new q (Forest.look_lt hq)
  have hxn := new x.handle (Forest.look_lt hl)
  obtain ⟨f₁, he₁, hs₁, hl₁⟩ := Forest.create_spec f (.plain (.leaf l)) m
  have hq₁ := (Forest.look_old hl₁ q (Forest.look_lt hq)).trans hq
  have hx₁ := (Forest.look_old hl₁ x.handle (Forest.look_lt hl)).trans hl
  obtain ⟨f₂, he₂, hs₂, hl₂⟩ := Forest.wrapDeclarations_spec labels hx₁ ha hq₁ hc rfl hsib.1 hsib.2 hqx
  rw [hs₁] at he₂ hl₂ hs₂
  simp only [Nat.add_assoc, Nat.reduceAdd] at he₂ hl₂ hs₂
  have hleaf₂ : f₂.look f.size = some ⟨.plain (.leaf l), m, none, []⟩ := by
    simp [hl₂, hl₁, Ne.symm hqn.1, Ne.symm hxn.1]
  have hright₂ : f₂.look (f.size + 2) = some ⟨.plain .tree, {}, some (f.size + 3), []⟩ := by
    simp [hl₂, Ne.symm hxn.2.2.1]
  have hconflict₂ : f₂.look (f.size + 3) =
      some ⟨.conflict .declarations labels (f.size + 1) (f.size + 2), {}, some q, []⟩ := by
    simp [hl₂, Ne.symm hxn.2.2.2]
  obtain ⟨f₃, he₃, hs₃, hl₃⟩ := Forest.attach_spec hright₂ rfl hleaf₂ rfl (by simp)
  have old : ∀ k < f.size, k ≠ q → k ≠ x.handle → f₃.look k = f.look k := by
    intro k hk hkq hkx
    have hkn := new k hk
    simp [hl₃, hl₂, hl₁, hkn, hkq, hkx]
  refine ⟨f₁, f₂, f₃, he₁, he₂, ?_, he₃, by omega, ?_⟩
  · simp only [Forest.rightSide, Forest.kind_of_look hconflict₂, bind, Except.bind]
    rfl
  refine (Edit.oppose q c n before after x l m).patches hx hd (by omega) ?_ ?_
  · refine ((Frame.node q c n before after).holds_fill _).mpr ⟨⟨?_, hs.siblings old⟩, ?_⟩
    · simp [hl₃, hl₂, hqn, hqx, Frame.handle, Frame.nodeAround]
    · simp only [Outline.holds_conflict, Outline.holds_node, List.mem_singleton, forall_eq]
      refine ⟨?_, ⟨?_, ?_⟩, ?_, ?_, by simp⟩
      · simp [hl₃, hconflict₂, Frame.handle]
      · simp [hl₃, hl₂, Ne.symm hxn.2.1]
      · refine hs.child.reparent hs.childNodup hl (by simp [hl₃, hl₂, hxn]) ?_
        intro k hk hkx
        refine old k (hs.child.lt_size hk) ?_ hkx
        rintro rfl
        exact hs.not_mem hk
      · simp [hl₃]
      · simp [hl₃]
  · intro k hk hn
    refine old k hk (fun he => hn ?_) fun he => hn ?_
    · simp [he]
    · simp [he, x.handle_mem_handles]

end Reconcile.Merge
