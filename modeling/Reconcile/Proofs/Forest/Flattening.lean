import Reconcile.Proofs.Forest.Identity
import Reconcile.Proofs.Merge.Valid

namespace Reconcile

namespace Outline

mutual

/-- The comments that dissolved containers leave to the scope around them. -/
def remarks : Outline → List String
  | node _ content notes children =>
      if content.isDeclaration then [] else notes.comments ++ remarksOfAll children
  | conflict .. => []

def remarksOfAll : List Outline → List String
  | [] => []
  | o :: os => o.remarks ++ remarksOfAll os

end

mutual

/-- What takes the place of an outline when its containers are dissolved. -/
def flat : Outline → List Outline
  | node h content notes children =>
      if content.isDeclaration then
        [node h content (notes.addComments (remarksOfAll children)) (flatOfAll children)]
      else flatOfAll children
  | conflict h form labels notes left right => [conflict h form labels notes left right]

def flatOfAll : List Outline → List Outline
  | [] => []
  | o :: os => o.flat ++ flatOfAll os

end

variable {o : Outline} {outer : String} {h : Handle} {c : Content} {n : Notes} {cs : List Outline}

@[simp] theorem remarksOfAll_eq (os : List Outline) : remarksOfAll os = os.flatMap remarks := by
  induction os with
  | nil => rfl
  | cons o os ih => simp [remarksOfAll, ih]

@[simp] theorem flatOfAll_eq (os : List Outline) : flatOfAll os = os.flatMap flat := by
  induction os with
  | nil => rfl
  | cons o os ih => simp [flatOfAll, ih]

theorem remarks_declaration (hc : c.isDeclaration = true) : (node h c n cs).remarks = [] := by
  simp [remarks, hc]

theorem remarks_container (hc : c.isDeclaration = false) :
    (node h c n cs).remarks = n.comments ++ cs.flatMap remarks := by
  simp [remarks, hc]

theorem flat_declaration (hc : c.isDeclaration = true) :
    (node h c n cs).flat = [node h c (n.addComments (cs.flatMap remarks)) (cs.flatMap flat)] := by
  simp [flat, hc]

theorem flat_container (hc : c.isDeclaration = false) : (node h c n cs).flat = cs.flatMap flat := by
  simp [flat, hc]

theorem qualify_container (hc : c.isDeclaration = false) : c.qualify outer = outer := by
  cases c with
  | scope | leaf => cases hc
  | tree | visibilityGroup | group => rfl

theorem handles_flat (ho : o.conflictFree = true) : o.flat.flatMap handles = o.declared := by
  induction o with
  | node h c n cs ih =>
      rw [conflictFree_node] at ho
      have hcs : (cs.flatMap flat).flatMap handles = cs.flatMap declared := by
        rw [List.flatMap_assoc]
        exact List.flatMap_congr fun x hx => ih x hx (ho x hx)
      cases hc : c.isDeclaration with
      | true => simp [flat_declaration hc, hc, hcs]
      | false => simp [flat_container hc, hc, hcs]
  | conflict => cases ho

theorem forall₂_flatMap {α β γ : Type} {R : β → γ → Prop} {f : α → List β} {g : α → List γ}
    {xs : List α} (h : ∀ x ∈ xs, List.Forall₂ R (f x) (g x)) :
    List.Forall₂ R (xs.flatMap f) (xs.flatMap g) := by
  induction xs with
  | nil => exact .nil
  | cons x xs ih => exact List.rel_append (h x (by simp)) (ih fun y hy => h y (by simp [hy]))

theorem conflictFree_flat (ho : o.conflictFree = true) : ∀ x ∈ o.flat, x.conflictFree = true := by
  induction o with
  | node h c n cs ih =>
      rw [conflictFree_node] at ho
      have hcs : ∀ x ∈ cs.flatMap flat, x.conflictFree = true := by
        intro x hx
        obtain ⟨y, hy, hx⟩ := List.mem_flatMap.mp hx
        exact ih y hy (ho y hy) x hx
      cases hc : c.isDeclaration with
      | true => simpa [flat_declaration hc] using hcs
      | false => simpa [flat_container hc] using hcs
  | conflict => cases ho

/-- Declarations keep their contents and their names and may get more comments. -/
theorem census_flat (ho : o.conflictFree = true) (outer : String) :
    List.Forall₂ (fun e e' => e.Grows e' ∧ e'.content = e.content) (o.census outer)
      (o.flat.flatMap (census outer)) := by
  induction o generalizing outer with
  | node h c n cs ih =>
      rw [conflictFree_node] at ho
      have hcs (outer : String) : List.Forall₂ (fun e e' => e.Grows e' ∧ e'.content = e.content)
          (cs.flatMap (census outer)) ((cs.flatMap flat).flatMap (census outer)) := by
        rw [List.flatMap_assoc]
        exact forall₂_flatMap fun x hx => ih x hx (ho x hx) outer
      cases hc : c.isDeclaration with
      | true =>
          rw [flat_declaration hc, List.flatMap_singleton, census_node, census_node]
          refine List.rel_append ?_ (hcs _)
          simp only [ownEntry, hc, if_true]
          exact .cons ⟨⟨rfl, rfl, Or.inl rfl, subset_union _ _, rfl⟩, rfl⟩ .nil
      | false =>
          rw [flat_container hc, census_node, qualify_container hc]
          simpa [ownEntry, hc] using hcs outer
  | conflict => cases ho

theorem exists_subtree_of_flat {x : Outline} (ho : o.conflictFree = true)
    (hx : x ∈ o.flat.flatMap subtrees) : ∃ y ∈ o.subtrees, y.handle = x.handle ∧ x.handles ⊆ y.handles := by
  induction o with
  | node h c n cs ih =>
      rw [conflictFree_node] at ho
      have below (hx : x ∈ (cs.flatMap flat).flatMap subtrees) :
          ∃ y ∈ (node h c n cs).subtrees, y.handle = x.handle ∧ x.handles ⊆ y.handles := by
        simp only [List.flatMap_assoc, List.mem_flatMap] at hx ih
        obtain ⟨z, hz, hx⟩ := hx
        obtain ⟨y, hy, hyx⟩ := ih z hz (ho z hz) hx
        exact ⟨y, by simpa using Or.inr ⟨z, hz, hy⟩, hyx⟩
      cases hc : c.isDeclaration with
      | true =>
          rw [flat_declaration hc, List.flatMap_singleton, subtrees_node, List.mem_cons] at hx
          rcases hx with rfl | hx
          · refine ⟨node h c n cs, mem_subtrees_self _, rfl, ?_⟩
            rw [handles_node, handles_node, List.flatMap_assoc,
              List.flatMap_congr fun z hz => handles_flat (ho z hz)]
            have hsub := List.Sublist.flatMap_right cs fun z _ => sublist_handles_census "" z
            exact List.cons_subset_cons h hsub.subset
          · exact below hx
      | false =>
          rw [flat_container hc] at hx
          exact below hx
  | conflict => cases ho

theorem flat_of_declarations (ho : ∀ x ∈ o.subtrees, ∃ c, x.content? = some c ∧ c.isDeclaration = true) :
    o.flat = [o] ∧ o.remarks = [] := by
  induction o with
  | node h c n cs ih =>
      simp only [subtrees_node, List.mem_cons, List.mem_flatMap] at ho
      obtain ⟨c', hc', hc⟩ := ho _ (Or.inl rfl)
      cases hc'
      have hcs : ∀ x ∈ cs, x.flat = [x] ∧ x.remarks = [] := fun x hx =>
        ih x hx fun y hy => ho y (Or.inr ⟨x, hx, hy⟩)
      refine ⟨?_, remarks_declaration hc⟩
      have hremarks : cs.flatMap remarks = [] := List.flatMap_eq_nil_iff.mpr fun x hx => (hcs x hx).2
      rw [flat_declaration hc, List.flatMap_congr fun x hx => (hcs x hx).1, List.flatMap_singleton',
        hremarks]
      rfl
  | conflict h form labels n l r =>
      obtain ⟨c, hc, -⟩ := ho _ (mem_subtrees_self _)
      cases hc

end Outline

end Reconcile
