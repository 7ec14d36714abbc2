import Reconcile.Normal
import Reconcile.Proofs.Forest.Amend

namespace Reconcile

/-- Whether what is in a node is in a visibility group below the nearest scope. -/
def Content.within (inside : Bool) : Content → Bool
  | .visibilityGroup _ => true
  | .scope _ => false
  | _ => inside

/-- How the children of one container are rearranged, in or outside of a visibility group. -/
abbrev Rule := Bool → Content → List Outline → List Outline

def Notes.unlocated (n : Notes) : Notes := { n with location := none }

namespace Outline

def kind : Outline → Kind
  | node _ c _ _ => .plain c
  | conflict _ form labels _ l r => .conflict form labels l.handle r.handle

def forget (o : Outline) : Outline := o.rename fun _ => 0

mutual

def unlocated : Outline → Outline
  | node h c n cs => node h c n.unlocated (unlocatedAll cs)
  | conflict h form labels n l r => conflict h form labels n.unlocated l.unlocated r.unlocated

def unlocatedAll : List Outline → List Outline
  | [] => []
  | o :: os => o.unlocated :: unlocatedAll os

end

def gist (o : Outline) : Outline := o.forget.unlocated

mutual

def rework (g : Rule) (inside : Bool) : Outline → Outline
  | node h c n cs =>
      if c.isContainer then node h c n (g (c.within inside) c (reworkAll g (c.within inside) cs))
      else node h c n cs
  | conflict h form labels n l r =>
      conflict h form labels n (l.rework g inside) (r.rework g inside)

def reworkAll (g : Rule) (inside : Bool) : List Outline → List Outline
  | [] => []
  | o :: os => o.rework g inside :: reworkAll g inside os

end

mutual

/-- A property of the children of a container holds in all containers of an outline. -/
def Everywhere (P : Bool → Content → List Outline → Prop) (inside : Bool) : Outline → Prop
  | node _ c _ cs =>
      c.isContainer = true → P (c.within inside) c cs ∧ EverywhereAll P (c.within inside) cs
  | conflict _ _ _ _ l r => l.Everywhere P inside ∧ r.Everywhere P inside

def EverywhereAll (P : Bool → Content → List Outline → Prop) (inside : Bool) :
    List Outline → Prop
  | [] => True
  | o :: os => o.Everywhere P inside ∧ EverywhereAll P inside os

end

variable {g : Rule} {P P' : Bool → Content → List Outline → Prop} {inside : Bool} {o o' : Outline}

@[simp] theorem reworkAll_eq (os : List Outline) : reworkAll g inside os = os.map (rework g inside) := by
  induction os with
  | nil => rfl
  | cons o os ih => simp [reworkAll, ih]

@[simp] theorem everywhereAll_iff (os : List Outline) :
    EverywhereAll P inside os ↔ ∀ o ∈ os, o.Everywhere P inside := by
  induction os with
  | nil => simp [EverywhereAll]
  | cons o os ih => simp [EverywhereAll, ih]

theorem everywhere_node {h : Handle} {c : Content} {n : Notes} {cs : List Outline} :
    (node h c n cs).Everywhere P inside ↔ (c.isContainer = true →
      P (c.within inside) c cs ∧ ∀ o ∈ cs, o.Everywhere P (c.within inside)) := by
  rw [Everywhere, everywhereAll_iff]

theorem everywhere_leaf (h : Handle) (l : Leaf) (n : Notes) (cs : List Outline) :
    (node h (.leaf l) n cs).Everywhere P inside :=
  everywhere_node.mpr nofun

theorem rework_container {c : Content} (hc : c.isContainer = true) (h : Handle) (n : Notes)
    (cs : List Outline) : (node h c n cs).rework g inside =
      node h c n (g (c.within inside) c (cs.map (rework g (c.within inside)))) := by
  rw [rework, if_pos hc, reworkAll_eq]

theorem rework_leaf (h : Handle) (l : Leaf) (n : Notes) (cs : List Outline) :
    (node h (.leaf l) n cs).rework g inside = node h (.leaf l) n cs := rfl

theorem rework_conflict (h : Handle) (form : ConflictForm) (labels : Labels) (n : Notes)
    (l r : Outline) : (conflict h form labels n l r).rework g inside =
      conflict h form labels n (l.rework g inside) (r.rework g inside) := rfl

@[simp] theorem handle_rework (o : Outline) : (o.rework g inside).handle = o.handle := by
  cases o with
  | node h c n cs =>
      rw [rework]
      split <;> rfl
  | conflict => rfl

@[simp] theorem kind_rework (o : Outline) : (o.rework g inside).kind = o.kind := by
  cases o with
  | node h c n cs =>
      rw [rework]
      split <;> rfl
  | conflict => simp [rework_conflict, kind]

theorem rework_of_everywhere (ho : o.Everywhere (fun i c cs => g i c cs = cs) inside) :
    o.rework g inside = o := by
  induction o generalizing inside with
  | node h c n cs ih =>
      rw [everywhere_node] at ho
      by_cases hc : c.isContainer = true
      · obtain ⟨hg, hcs⟩ := ho hc
        have hmap : cs.map (rework g (c.within inside)) = cs := by
          rw [List.map_congr_left fun x hx => ih x hx (hcs x hx), List.map_id']
        rw [rework_container hc, hmap, hg]
      · rw [rework, if_neg hc]
  | conflict h form labels n l r ihl ihr =>
      rw [rework_conflict, ihl ho.1, ihr ho.2]

/-- What a rule brings about in one container it brings about everywhere. -/
theorem everywhere_rework (ho : o.Everywhere P' inside)
    (hg : ∀ i c cs, P' i c cs → (∀ x ∈ cs, (x.rework g i).Everywhere P i) →
      P i c (g i c (cs.map (rework g i))) ∧ ∀ x ∈ g i c (cs.map (rework g i)), x.Everywhere P i) :
    (o.rework g inside).Everywhere P inside := by
  induction o generalizing inside with
  | node h c n cs ih =>
      rw [everywhere_node] at ho
      by_cases hc : c.isContainer = true
      · obtain ⟨hP, hcs⟩ := ho hc
        rw [rework_container hc, everywhere_node]
        intro _
        apply hg _ _ _ hP
        intro x hx
        exact ih x hx (hcs x hx)
      · rw [rework, if_neg hc, everywhere_node]
        exact fun hc' => absurd hc' hc
  | conflict h form labels n l r ihl ihr => exact ⟨ihl ho.1, ihr ho.2⟩

theorem everywhere_of_forall (h : ∀ i c cs, P i c cs) : o.Everywhere P inside := by
  induction o generalizing inside with
  | node k c n cs ih => exact everywhere_node.mpr fun _ => ⟨h _ _ _, fun x hx => ih x hx⟩
  | conflict k form labels n l r ihl ihr => exact ⟨ihl, ihr⟩

theorem everywhere_reworked (o : Outline)
    (hg : ∀ i c (cs : List Outline), (∀ x ∈ cs, (x.rework g i).Everywhere P i) →
      P i c (g i c (cs.map (rework g i))) ∧ ∀ x ∈ g i c (cs.map (rework g i)), x.Everywhere P i) :
    (o.rework g inside).Everywhere P inside := by
  have ho : o.Everywhere (fun _ _ _ => True) inside := everywhere_of_forall fun _ _ _ => trivial
  exact everywhere_rework ho fun i c cs _ => hg i c cs

theorem Everywhere.imp (ho : o.Everywhere P inside) (h : ∀ i c cs, P i c cs → P' i c cs) :
    o.Everywhere P' inside := by
  induction o generalizing inside with
  | node k c n cs ih =>
      rw [everywhere_node] at ho ⊢
      intro hc
      exact ⟨h _ _ _ (ho hc).1, fun x hx => ih x hx ((ho hc).2 x hx)⟩
  | conflict k form labels n l r ihl ihr => exact ⟨ihl ho.1, ihr ho.2⟩

@[simp] theorem forget_node (h : Handle) (c : Content) (n : Notes) (cs : List Outline) :
    (node h c n cs).forget = node 0 c n (cs.map forget) := by
  rw [forget, rename_node]
  rfl

@[simp] theorem forget_conflict (h : Handle) (form : ConflictForm) (labels : Labels) (n : Notes)
    (l r : Outline) :
    (conflict h form labels n l r).forget = conflict 0 form labels n l.forget r.forget := rfl

theorem forget_rename (φ : Handle → Handle) (o : Outline) : (o.rename φ).forget = o.forget := by
  induction o with
  | node h c n cs ih =>
      rw [rename_node, forget_node, forget_node, List.map_map]
      exact congrArg _ (List.map_congr_left ih)
  | conflict h form labels n l r ihl ihr =>
      rw [rename_conflict, forget_conflict, forget_conflict, ihl, ihr]

theorem sameAll_of_map {F : Outline → Outline} {os os' : List Outline}
    (hos : ∀ o ∈ os, ∀ o', F o = F o' → o.same o' = true) (h : os.map F = os'.map F) :
    sameAll os os' = true := by
  induction os generalizing os' with
  | nil =>
      cases List.map_eq_nil_iff.mp h.symm
      rfl
  | cons o os ih =>
      obtain ⟨o', os', rfl, ho, hos'⟩ := List.map_eq_cons_iff.mp h.symm
      rw [sameAll, Bool.and_eq_true]
      exact ⟨hos o (by simp) o' ho.symm, ih (fun x hx => hos x (by simp [hx])) hos'.symm⟩

theorem unlocatedAll_eq (os : List Outline) : unlocatedAll os = os.map unlocated := by
  induction os with
  | nil => rfl
  | cons o os ih => rw [unlocatedAll, ih, List.map_cons]

@[simp] theorem unlocated_node (h : Handle) (c : Content) (n : Notes) (cs : List Outline) :
    (node h c n cs).unlocated = node h c n.unlocated (cs.map unlocated) := by
  rw [unlocated, unlocatedAll_eq]

@[simp] theorem unlocated_conflict (h : Handle) (form : ConflictForm) (labels : Labels) (n : Notes)
    (l r : Outline) : (conflict h form labels n l r).unlocated =
      conflict h form labels n.unlocated l.unlocated r.unlocated := rfl

@[simp] theorem gist_node (h : Handle) (c : Content) (n : Notes) (cs : List Outline) :
    (node h c n cs).gist = node 0 c n.unlocated (cs.map gist) := by
  rw [gist, forget_node, unlocated_node, List.map_map]
  rfl

theorem gist_conflict (h : Handle) (form : ConflictForm) (labels : Labels) (n : Notes)
    (l r : Outline) :
    (conflict h form labels n l r).gist = conflict 0 form labels n.unlocated l.gist r.gist := rfl

theorem same_of_gist (h : o.gist = o'.gist) : o.same o' = true := by
  have comments {n n' : Notes} (hn : n.unlocated = n'.unlocated) : n.comments = n'.comments := by
    rw [Notes.unlocated, Notes.unlocated, Notes.mk.injEq] at hn
    exact hn.1
  induction o generalizing o' with
  | node k c n cs ih =>
      cases o' with
      | conflict => simp [gist_conflict] at h
      | node k' c' n' cs' =>
          simp only [gist_node, node.injEq, true_and] at h
          obtain ⟨rfl, hn, hcs⟩ := h
          simp [same, comments hn, sameAll_of_map (fun x hx y => ih x hx) hcs]
  | conflict k form labels n l r ihl ihr =>
      cases o' with
      | node => simp [gist_conflict] at h
      | conflict k' form' labels' n' l' r' =>
          simp only [gist_conflict, conflict.injEq, true_and] at h
          obtain ⟨rfl, rfl, hn, hl, hr⟩ := h
          simp [same, comments hn, ihl hl, ihr hr]

theorem map_of_sameAll {F : Outline → Outline} {os os' : List Outline}
    (hos : ∀ o ∈ os, ∀ o', o.same o' = true → F o = F o') (h : sameAll os os' = true) :
    os.map F = os'.map F := by
  induction os generalizing os' with
  | nil =>
      cases os' with
      | nil => rfl
      | cons => cases h
  | cons o os ih =>
      cases os' with
      | nil => cases h
      | cons o' os' =>
          rw [sameAll, Bool.and_eq_true] at h
          rw [List.map_cons, List.map_cons, hos o (by simp) o' h.1,
            ih (fun x hx => hos x (by simp [hx])) h.2]

theorem gist_of_same (h : o.same o' = true) : o.gist = o'.gist := by
  induction o generalizing o' with
  | node k c n cs ih =>
      cases o' with
      | conflict => simp [same] at h
      | node k' c' n' cs' =>
          simp only [same, Bool.and_eq_true, decide_eq_true_eq] at h
          obtain ⟨⟨hn, rfl⟩, hcs⟩ := h
          rw [gist_node, gist_node, Notes.unlocated, Notes.unlocated, hn,
            map_of_sameAll (fun x hx y => ih x hx) hcs]
  | conflict k form labels n l r ihl ihr =>
      cases o' with
      | node => simp [same] at h
      | conflict k' form' labels' n' l' r' =>
          simp only [same, Bool.and_eq_true, decide_eq_true_eq] at h
          obtain ⟨⟨⟨⟨hn, rfl⟩, rfl⟩, hl⟩, hr⟩ := h
          rw [gist_conflict, gist_conflict, Notes.unlocated, Notes.unlocated, hn, ihl hl, ihr hr]

theorem same_of_forget (h : o.forget = o'.forget) : o.same o' = true :=
  same_of_gist (congrArg unlocated h)

theorem suits_rename (φ : Handle → Handle) (form : ConflictForm) (o : Outline) :
    form.suits (o.rename φ) = form.suits o := by
  cases o with
  | node => rw [rename_node]; rfl
  | conflict => rfl

theorem sound_rename (φ : Handle → Handle) (o : Outline) :
    (o.rename φ).sound = true ↔ o.sound = true := by
  induction o with
  | node h c n cs ih =>
      simp only [rename_node, sound_node, List.map_eq_nil_iff, List.mem_map, forall_exists_index,
        and_imp, forall_apply_eq_imp_iff₂]
      exact and_congr_right fun _ => forall₂_congr ih
  | conflict h form labels n l r ihl ihr =>
      simp only [rename_conflict, sound_conflict, suits_rename, ihl, ihr]

theorem sound_forget (o : Outline) : o.forget.sound = true ↔ o.sound = true := sound_rename _ o

theorem suits_rework (form : ConflictForm) (o : Outline) :
    form.suits (o.rework g inside) = form.suits o := by
  cases o with
  | node h c n cs =>
      rw [rework]
      split <;> rfl
  | conflict => rfl

theorem sound_rework (hg : ∀ i c cs, (∀ x ∈ cs, x.sound = true) → ∀ x ∈ g i c cs, x.sound = true)
    (ho : o.sound = true) : (o.rework g inside).sound = true := by
  induction o generalizing inside with
  | node h c n cs ih =>
      by_cases hc : c.isContainer = true
      · rw [sound_node] at ho
        rw [rework_container hc, sound_node]
        refine ⟨Or.inl hc, hg _ _ _ ?_⟩
        intro x hx
        obtain ⟨y, hy, rfl⟩ := List.mem_map.mp hx
        exact ih y hy (ho.2 y hy)
      · rwa [rework, if_neg hc]
  | conflict h form labels n l r ihl ihr =>
      rw [sound_conflict] at ho
      rw [rework_conflict, sound_conflict, suits_rework, suits_rework]
      exact ⟨ho.1, ihl ho.2.1, ihr ho.2.2⟩

end Outline

end Reconcile
