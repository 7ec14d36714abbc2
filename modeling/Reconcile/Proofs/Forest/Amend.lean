import Mathlib.Logic.Equiv.Basic
import Reconcile.Proofs.Forest.Contest

namespace Reconcile

structure Amendment where
  content : Content → Content := id
  notes : Notes → Notes := id
  added : List Outline := []

namespace Outline

mutual

def amend (h : Handle) (a : Amendment) : Outline → Outline
  | node k c n cs =>
      if k = h then node k (a.content c) (a.notes n) (amendAll h a cs ++ a.added)
      else node k c n (amendAll h a cs)
  | conflict k form labels n l r => conflict k form labels n (l.amend h a) (r.amend h a)

def amendAll (h : Handle) (a : Amendment) : List Outline → List Outline
  | [] => []
  | o :: os => o.amend h a :: amendAll h a os

end

mutual

def rename (φ : Handle → Handle) : Outline → Outline
  | node h c n cs => node (φ h) c n (renameAll φ cs)
  | conflict h form labels n l r => conflict (φ h) form labels n (l.rename φ) (r.rename φ)

def renameAll (φ : Handle → Handle) : List Outline → List Outline
  | [] => []
  | o :: os => o.rename φ :: renameAll φ os

end

variable {h : Handle} {a : Amendment} {φ ψ : Handle → Handle} {o x y : Outline} {path : List Frame}

@[simp] theorem amendAll_eq (os : List Outline) : amendAll h a os = os.map (amend h a) := by
  induction os with
  | nil => rfl
  | cons o os ih => simp [amendAll, ih]

@[simp] theorem renameAll_eq (os : List Outline) : renameAll φ os = os.map (rename φ) := by
  induction os with
  | nil => rfl
  | cons o os ih => simp [renameAll, ih]

@[simp] theorem rename_node (k : Handle) (c : Content) (n : Notes) (cs : List Outline) :
    (node k c n cs).rename φ = node (φ k) c n (cs.map (rename φ)) := by
  simp [rename]

@[simp] theorem rename_conflict (k : Handle) (form : ConflictForm) (labels : Labels) (n : Notes)
    (l r : Outline) : (conflict k form labels n l r).rename φ =
      conflict (φ k) form labels n (l.rename φ) (r.rename φ) := rfl

theorem amend_self (c : Content) (n : Notes) (cs : List Outline) :
    (node h c n cs).amend h a =
      node h (a.content c) (a.notes n) (cs.map (amend h a) ++ a.added) := by
  simp [amend]

theorem amend_other {k : Handle} (hk : k ≠ h) (c : Content) (n : Notes) (cs : List Outline) :
    (node k c n cs).amend h a = node k c n (cs.map (amend h a)) := by
  simp [amend, hk]

theorem map_amend (os : List Outline) (hos : ∀ o ∈ os, o.amend h a = o) : os.map (amend h a) = os := by
  rw [List.map_congr_left hos, List.map_id']

theorem amend_of_not_mem (hh : h ∉ o.handles) : o.amend h a = o := by
  induction o with
  | node k c n cs ih =>
      simp only [handles_node, List.mem_cons, List.mem_flatMap, not_or, not_exists, not_and] at hh
      rw [amend_other (Ne.symm hh.1), map_amend cs fun o ho => ih o ho (hh.2 o ho)]
  | conflict k form labels n l r ihl ihr =>
      simp only [handles_conflict, List.mem_cons, List.mem_append, not_or] at hh
      rw [amend, ihl hh.2.1, ihr hh.2.2]

theorem children_subset {x : Outline} (hx : x ∈ o.children) : x.handles ⊆ o.handles := by
  cases o with
  | node k c n cs =>
      rw [handles_node]
      exact fun _ hk => List.mem_cons_of_mem _ (handles_subset hx hk)
  | conflict => cases hx

theorem resolved_subset {x : Outline} (hx : x ∈ o.resolved) : x.handles ⊆ o.handles := by
  induction o generalizing x with
  | node k c n cs ih =>
      rw [resolved_node] at hx
      cases List.mem_singleton.mp hx
      intro k' hk
      simp only [handles_node, List.mem_cons, List.mem_flatMap] at hk ⊢
      rcases hk with hk | ⟨y, ⟨z, hz, hy⟩, hk⟩
      · exact Or.inl hk
      · exact Or.inr ⟨z, hz, ih z hz hy hk⟩
  | conflict k form labels n l r ihl _ =>
      have hl : x.handles ⊆ l.handles := by
        cases form with
        | declarations =>
            rw [resolved_declarations, List.mem_flatMap] at hx
            obtain ⟨y, hy, hx⟩ := hx
            exact List.Subset.trans (children_subset hx) (ihl hy)
        | headers => exact ihl hx
      intro k' hk
      rw [handles_conflict]
      exact List.mem_cons_of_mem _ (List.mem_append_left _ (hl hk))

theorem census_resolved (hs : o.sound = true) (outer : String) :
    o.resolved.flatMap (census outer) = o.census outer := by
  induction o generalizing outer with
  | node k c n cs ih =>
      rw [sound_node] at hs
      rw [resolved_node, List.flatMap_singleton, census_node, census_node, List.flatMap_assoc]
      congr 1
      exact List.flatMap_congr fun x hx => ih x hx (hs.2 x hx) _
  | conflict k form labels n l r ihl _ =>
      rw [sound_conflict] at hs
      rw [census_conflict, ← ihl hs.2.1]
      cases form with
      | headers => rfl
      | declarations =>
          obtain ⟨k', n', cs, rfl⟩ := ConflictForm.exists_tree hs.1.1
          simp only [resolved_declarations, resolved_node, List.flatMap_singleton, children,
            census_node]
          rfl

/-- Amending what is in the hole of a way down amends the resolved outline. A hole on the left side
of a conflict of declarations is no place for that: its node disappears. -/
theorem resolved_plug_amend (hs : (plug path x).sound = true) (hh : h ∉ pathHandles path)
    (hside : ∀ k form labels n r rest, path = .left k form labels n r :: rest →
      form = .headers ∨ ∀ z ∈ x.resolved, z.handle ≠ h)
    (hxy : y.resolved = x.resolved.map (amend h a)) :
    (plug path y).resolved = (plug path x).resolved.map (amend h a) := by
  induction path generalizing x y with
  | nil => exact hxy
  | cons fr path ih =>
      rw [pathHandles, List.flatMap_cons, List.mem_append, not_or, Frame.handles, List.mem_cons,
        not_or] at hh
      obtain ⟨⟨hfr, hsib⟩, hpath⟩ := hh
      refine ih hs hpath ?_ ?_
      · rintro k form labels n r rest rfl
        cases fr with
        | node k' c n' before after =>
            right
            intro z hz
            rw [Frame.fill, resolved_node] at hz
            cases List.mem_singleton.mp hz
            exact Ne.symm hfr
        | left k' form' labels' n' r' =>
            have ha : (Frame.left k form labels n r).admits (.conflict k' form' labels' n' x r') = true :=
              admits_of_sound hs
            cases ha
      · cases fr with
        | node k c n before after =>
            have keep {os : List Outline} (hos : ∀ o ∈ os, o ∈ before ++ after) :
                (os.flatMap resolved).map (amend h a) = os.flatMap resolved := by
              apply map_amend
              intro z hz
              obtain ⟨o, ho, hz⟩ := List.mem_flatMap.mp hz
              exact amend_of_not_mem fun hm => hsib (handles_subset (hos o ho) (resolved_subset hz hm))
            have hk : k ≠ h := Ne.symm hfr
            simp only [Frame.fill, resolved_node, List.map_cons, List.map_nil, amend_other hk,
              List.flatMap_append, List.flatMap_cons, List.map_append, hxy,
              keep fun o ho => List.mem_append_left _ ho, keep fun o ho => List.mem_append_right _ ho]
        | left k form labels n r =>
            cases form with
            | headers => exact hxy
            | declarations =>
                have hne := (hside k .declarations labels n r path rfl).resolve_left (by simp)
                rw [Frame.fill, Frame.fill, resolved_declarations, resolved_declarations, hxy,
                  List.flatMap_map, List.map_flatMap]
                refine List.flatMap_congr fun z hz => ?_
                cases z with
                | node k' c n' cs =>
                    have hk : k' ≠ h := hne _ hz
                    rw [amend_other hk]
                    rfl
                | conflict => rfl

theorem resolved_plug (hxy : y.resolved = x.resolved) :
    (plug path y).resolved = (plug path x).resolved := by
  induction path generalizing x y with
  | nil => exact hxy
  | cons fr path ih =>
      apply ih
      cases fr with
      | node => simp only [Frame.fill, resolved_node, List.flatMap_append, List.flatMap_cons, hxy]
      | left k form labels n r =>
          cases form with
          | declarations => rw [Frame.fill, Frame.fill, resolved_declarations, resolved_declarations, hxy]
          | headers => exact hxy

theorem resolved_of_conflictFree (ho : o.conflictFree = true) : o.resolved = [o] := by
  induction o with
  | node h c n cs ih =>
      rw [conflictFree_node] at ho
      rw [resolved_node, List.flatMap_congr fun x hx => ih x hx (ho x hx), List.flatMap_singleton']
  | conflict => cases ho

theorem conflictFree_plug (hx : (plug path x).conflictFree = true)
    (h : x.conflictFree = true → y.conflictFree = true) : (plug path y).conflictFree = true := by
  induction path generalizing x y with
  | nil => exact h hx
  | cons fr path ih =>
      refine ih hx ?_
      cases fr with
      | node k c n before after =>
          simp only [Frame.fill, conflictFree_node, List.mem_append, List.mem_cons]
          grind
      | left =>
          intro h
          cases h

theorem handle_rename (φ : Handle → Handle) (o : Outline) : (o.rename φ).handle = φ o.handle := by
  cases o with
  | node => rw [rename_node, handle_node, handle_node]
  | conflict => rfl

theorem handles_rename (o : Outline) : (o.rename φ).handles = o.handles.map φ := by
  induction o with
  | node k c n cs ih =>
      rw [rename_node, handles_node, handles_node, List.map_cons, List.map_flatMap, List.flatMap_map,
        List.flatMap_congr ih]
  | conflict k form labels n l r ihl ihr => simp [ihl, ihr]

theorem rename_congr (h : ∀ k ∈ o.handles, φ k = ψ k) : o.rename φ = o.rename ψ := by
  induction o with
  | node k c n cs ih =>
      rw [handles_node] at h
      rw [rename_node, rename_node, h k (by simp)]
      congr 1
      apply List.map_congr_left
      exact fun x hx => ih x hx fun k hk => h k (List.mem_cons_of_mem _ (handles_subset hx hk))
  | conflict k form labels n l r ihl ihr =>
      simp only [handles_conflict, List.mem_cons, List.mem_append] at h
      rw [rename_conflict, rename_conflict, h k (Or.inl rfl), ihl fun k hk => h k (Or.inr (Or.inl hk)),
        ihr fun k hk => h k (Or.inr (Or.inr hk))]

theorem rename_eq_self (h : ∀ k ∈ o.handles, φ k = k) : o.rename φ = o := by
  induction o with
  | node k c n cs ih =>
      simp only [handles_node, List.mem_cons, List.mem_flatMap] at h
      rw [rename_node, h k (Or.inl rfl),
        List.map_congr_left fun x hx => ih x hx fun k hk => h k (Or.inr ⟨x, hx, hk⟩), List.map_id']
  | conflict k form labels n l r ihl ihr =>
      simp only [handles_conflict, List.mem_cons, List.mem_append] at h
      rw [rename_conflict, h k (Or.inl rfl), ihl fun k hk => h k (Or.inr (Or.inl hk)),
        ihr fun k hk => h k (Or.inr (Or.inr hk))]

theorem rename_amend (hφ : φ.Injective) (h : Handle) (a : Amendment) (o : Outline) :
    (o.amend h a).rename φ =
      (o.rename φ).amend (φ h) { a with added := a.added.map (rename φ) } := by
  induction o with
  | node k c n cs ih =>
      have hcs : (cs.map (amend h a)).map (rename φ) = (cs.map (rename φ)).map
          (amend (φ h) { a with added := a.added.map (rename φ) }) := by
        rw [List.map_map, List.map_map]
        exact List.map_congr_left ih
      by_cases hk : k = h
      · subst hk
        rw [amend_self, rename_node, rename_node, amend_self, List.map_append, hcs]
      · rw [amend_other hk, rename_node, rename_node, amend_other (hφ.ne hk), hcs]
  | conflict k form labels n l r ihl ihr =>
      rw [amend, rename_conflict, rename_conflict, amend, ihl, ihr]

theorem census_rename (outer : String) (o : Outline) :
    (o.rename φ).census outer = (o.census outer).map fun e => { e with handle := φ e.handle } := by
  induction o generalizing outer with
  | node k c n cs ih =>
      rw [rename_node, census_node, census_node, List.map_append, List.flatMap_map, List.map_flatMap,
        List.flatMap_congr fun x hx => ih x hx (c.qualify outer)]
      congr 1
      unfold ownEntry
      split <;> rfl
  | conflict k form labels n l r ihl _ => exact ihl outer

theorem conflictFree_rename (ho : o.conflictFree = true) : (o.rename φ).conflictFree = true := by
  induction o with
  | node k c n cs ih =>
      rw [conflictFree_node] at ho
      simpa using fun x hx => ih x hx (ho x hx)
  | conflict => cases ho

theorem sameAll_rename (os : List Outline) (hos : ∀ o ∈ os, (o.rename φ).same o = true) :
    sameAll (os.map (rename φ)) os = true := by
  induction os with
  | nil => rfl
  | cons o os ih =>
      rw [List.map_cons, sameAll, Bool.and_eq_true]
      exact ⟨hos o (by simp), ih fun x hx => hos x (by simp [hx])⟩

theorem same_rename (o : Outline) : (o.rename φ).same o = true := by
  induction o with
  | node k c n cs ih =>
      rw [rename_node, same, sameAll_rename cs ih]
      simp
  | conflict k form labels n l r ihl ihr =>
      rw [rename_conflict, same, ihl, ihr]
      simp

end Outline

end Reconcile
