import Mathlib.Data.List.Nodup
import Reconcile.Forest.Outline

namespace Reconcile

def Outline.content? : Outline → Option Content
  | .node _ content _ _ => some content
  | .conflict .. => none

def ConflictForm.accepts : ConflictForm → Content → Bool
  | .declarations, .tree => true
  | .headers, .scope _ => true
  | _, _ => false

def ConflictForm.suits (form : ConflictForm) (o : Outline) : Bool := o.content?.any form.accepts

def ConflictForm.rivals : ConflictForm → Outline → List Outline
  | .declarations, right => right.children
  | .headers, right => [right]

theorem ConflictForm.exists_tree {o : Outline} (h : declarations.suits o = true) :
    ∃ r n rs, o = .node r .tree n rs := by
  cases o with
  | node r c n rs =>
      cases c with
      | tree => exact ⟨r, n, rs, rfl⟩
      | scope | visibilityGroup | group | leaf => cases h
  | conflict => cases h

namespace Outline

@[induction_eliminator]
theorem induction {P : Outline → Prop}
    (node : ∀ h content notes children, (∀ o ∈ children, P o) → P (.node h content notes children))
    (conflict : ∀ h form labels notes left right, P left → P right →
      P (.conflict h form labels notes left right)) (o : Outline) : P o :=
  @Outline.rec P (fun os => ∀ o ∈ os, P o) node conflict (by simp)
    (by intro o os ho hos; simpa using ⟨ho, hos⟩) o

mutual

def subtrees : Outline → List Outline
  | node h content notes children => node h content notes children :: subtreesOfAll children
  | conflict h form labels notes left right =>
      conflict h form labels notes left right :: left.subtrees ++ right.subtrees

def subtreesOfAll : List Outline → List Outline
  | [] => []
  | o :: os => o.subtrees ++ subtreesOfAll os

end

mutual

/-- Only containers have children, and the sides of a conflict are what its form asks for. -/
def sound : Outline → Bool
  | node _ content _ children => (content.isContainer || children.isEmpty) && soundAll children
  | conflict _ form _ _ left right =>
      form.suits left && form.suits right && left.sound && right.sound

def soundAll : List Outline → Bool
  | [] => true
  | o :: os => o.sound && soundAll os

end

mutual

def conflictFree : Outline → Bool
  | node _ _ _ children => conflictFreeAll children
  | conflict .. => false

def conflictFreeAll : List Outline → Bool
  | [] => true
  | o :: os => o.conflictFree && conflictFreeAll os

end

def handles (o : Outline) : List Handle := o.handle :: o.descendants

@[simp] theorem handle_node (h : Handle) (c : Content) (n : Notes) (cs : List Outline) :
    (node h c n cs).handle = h := rfl

@[simp] theorem handle_conflict (h : Handle) (form : ConflictForm) (labels : Labels) (n : Notes)
    (l r : Outline) : (conflict h form labels n l r).handle = h := rfl

theorem descendantsOfAll_eq (os : List Outline) : descendantsOfAll os = os.flatMap handles := by
  induction os with
  | nil => rfl
  | cons o os ih => simp [descendantsOfAll, handles, ih]

@[simp] theorem handles_node (h : Handle) (c : Content) (n : Notes) (cs : List Outline) :
    (node h c n cs).handles = h :: cs.flatMap handles := by
  simp [handles, handle, descendants, descendantsOfAll_eq]

@[simp] theorem handles_conflict (h : Handle) (form : ConflictForm) (labels : Labels) (n : Notes)
    (l r : Outline) : (conflict h form labels n l r).handles = h :: (l.handles ++ r.handles) := by
  simp [handles, handle, descendants]

theorem handle_mem_handles (o : Outline) : o.handle ∈ o.handles := List.mem_cons_self

theorem handles_subset {o : Outline} {os : List Outline} (ho : o ∈ os) :
    o.handles ⊆ os.flatMap handles :=
  fun _ hk => List.mem_flatMap.mpr ⟨o, ho, hk⟩

theorem length_handles_le {o : Outline} {os : List Outline} (ho : o ∈ os) :
    o.handles.length ≤ (os.flatMap handles).length :=
  (List.sublist_flatten_of_mem (List.mem_map_of_mem ho)).length_le

theorem map_handle_sublist (os : List Outline) : (os.map handle).Sublist (os.flatMap handles) := by
  induction os with
  | nil => simp
  | cons o os ih =>
      rw [List.map_cons, List.flatMap_cons, handles, List.cons_append]
      exact (ih.trans (List.sublist_append_right _ _)).cons_cons _

theorem map_handle_subset (os : List Outline) : os.map handle ⊆ os.flatMap handles :=
  (map_handle_sublist os).subset

@[simp] theorem subtreesOfAll_eq (os : List Outline) : subtreesOfAll os = os.flatMap subtrees := by
  induction os with
  | nil => rfl
  | cons o os ih => simp [subtreesOfAll, ih]

@[simp] theorem subtrees_node (h : Handle) (c : Content) (n : Notes) (cs : List Outline) :
    (node h c n cs).subtrees = node h c n cs :: cs.flatMap subtrees := by
  simp [subtrees]

@[simp] theorem subtrees_conflict (h : Handle) (form : ConflictForm) (labels : Labels) (n : Notes)
    (l r : Outline) : (conflict h form labels n l r).subtrees =
      conflict h form labels n l r :: (l.subtrees ++ r.subtrees) := by
  simp [subtrees]

theorem mem_subtrees_self (o : Outline) : o ∈ o.subtrees := by
  cases o <;> simp

theorem subtrees_subset {o x : Outline} (hx : x ∈ o.subtrees) : x.subtrees ⊆ o.subtrees := by
  induction o with
  | node h c n cs ih =>
      rw [subtrees_node, List.mem_cons, List.mem_flatMap] at hx
      rcases hx with rfl | ⟨y, hy, hx⟩
      · rw [subtrees_node]
        exact List.Subset.refl _
      · intro z hz
        rw [subtrees_node]
        exact List.mem_cons_of_mem _ (List.mem_flatMap.mpr ⟨y, hy, ih y hy hx hz⟩)
  | conflict h form labels n l r ihl ihr =>
      rw [subtrees_conflict, List.mem_cons, List.mem_append] at hx
      rcases hx with rfl | hx | hx
      · rw [subtrees_conflict]
        exact List.Subset.refl _
      · intro z hz
        rw [subtrees_conflict]
        exact List.mem_cons_of_mem _ (List.mem_append_left _ (ihl hx hz))
      · intro z hz
        rw [subtrees_conflict]
        exact List.mem_cons_of_mem _ (List.mem_append_right _ (ihr hx hz))

theorem map_handle_subtrees (o : Outline) : o.subtrees.map handle = o.handles := by
  induction o with
  | node h c n cs ih =>
      simp only [subtrees_node, List.map_cons, handle_node, handles_node, List.map_flatMap]
      congr 1
      exact List.flatMap_congr fun o ho => ih o ho
  | conflict h form labels n l r ihl ihr => simp [ihl, ihr]

theorem handle_mem_of_subtree {o x : Outline} (hx : x ∈ o.subtrees) : x.handle ∈ o.handles := by
  rw [← map_handle_subtrees]
  exact List.mem_map_of_mem hx

theorem eq_of_handle {o x y : Outline} (hd : o.handles.Nodup) (hx : x ∈ o.subtrees)
    (hy : y ∈ o.subtrees) (hh : x.handle = y.handle) : x = y := by
  rw [← map_handle_subtrees] at hd
  exact List.inj_on_of_nodup_map hd hx hy hh

@[simp] theorem soundAll_iff (os : List Outline) : soundAll os = true ↔ ∀ o ∈ os, o.sound = true := by
  induction os with
  | nil => simp [soundAll]
  | cons o os ih => simp [soundAll, ih]

@[simp] theorem sound_node (h : Handle) (c : Content) (n : Notes) (cs : List Outline) :
    (node h c n cs).sound = true ↔
      (c.isContainer = true ∨ cs = []) ∧ ∀ o ∈ cs, o.sound = true := by
  simp [sound]

@[simp] theorem sound_conflict (h : Handle) (form : ConflictForm) (labels : Labels) (n : Notes)
    (l r : Outline) : (conflict h form labels n l r).sound = true ↔
      (form.suits l = true ∧ form.suits r = true) ∧ l.sound = true ∧ r.sound = true := by
  simp [sound, and_assoc]

@[simp] theorem conflictFreeAll_iff (os : List Outline) :
    conflictFreeAll os = true ↔ ∀ o ∈ os, o.conflictFree = true := by
  induction os with
  | nil => simp [conflictFreeAll]
  | cons o os ih => simp [conflictFreeAll, ih]

@[simp] theorem conflictFree_node (h : Handle) (c : Content) (n : Notes) (cs : List Outline) :
    (node h c n cs).conflictFree = true ↔ ∀ o ∈ cs, o.conflictFree = true := by
  simp [conflictFree]

end Outline

end Reconcile
