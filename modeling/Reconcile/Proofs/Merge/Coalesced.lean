import Reconcile.Proofs.Forest.Contest
import Reconcile.Proofs.Merge.Coalescing

namespace Reconcile.Outline

structure Coalesces (x y : Outline) : Prop where
  plain : x.conflictFree = true → y = x
  census : ∀ outer, y.census outer = x.census outer
  resolved : y.resolved = x.resolved
  rivals : y.rivals.Perm x.rivals
  leaves : y.leaves.Perm x.leaves
  opposes : ∀ {a b}, x.Opposes a b → y.Opposes a b
  handles : y.handles ⊆ x.handles
  content : y.content? = x.content?
  notes : y.notes = x.notes

namespace Coalesces

variable {x y : Outline}

theorem refl (x : Outline) : Coalesces x x :=
  ⟨fun _ => rfl, fun _ => rfl, rfl, .refl _, .refl _, fun h => h, List.Subset.refl _,
    rfl, rfl⟩

theorem declared (h : Coalesces x y) : y.declared = x.declared := by
  rw [Outline.declared, h.census, Outline.declared]

theorem conflict {h : Handle} {form : ConflictForm} {labels : Labels} {n : Notes}
    {l r l' r' : Outline} (hs : (Outline.conflict h form labels n l r).sound = true)
    (ht : (Outline.conflict h form labels n l r).tidy = true) (hl : Coalesces l l')
    (hr : Coalesces r r') :
    Coalesces (.conflict h form labels n l r) (.conflict h form labels n l' r') := by
  rw [sound_conflict] at hs
  rw [tidy_conflict] at ht
  cases hr.plain (conflictFree_of_bare hs.1.2 ht.1)
  refine ⟨nofun, hl.census, ?_, ?_, ?_, ?_, ?_, rfl, rfl⟩
  · cases form with
    | declarations => rw [resolved_declarations, resolved_declarations, hl.resolved]
    | headers => rw [resolved_headers, resolved_headers, hl.resolved]
  · rw [rivals_conflict, rivals_conflict]
    exact (hl.rivals.append_right _).append_left _
  · rw [leaves_conflict, leaves_conflict]
    exact hl.leaves.append_right _
  · intro a b hab
    rw [opposes_conflict] at hab ⊢
    rw [hl.declared]
    exact hab.imp_right (Or.imp_left hl.opposes)
  · rw [handles_conflict, handles_conflict]
    intro k hk
    simp only [List.mem_cons, List.mem_append] at hk ⊢
    exact hk.imp_right (Or.imp_left (@hl.handles k))

end Coalesces

namespace Unites

variable {x y z : Outline} (h : Unites x y z)

include h

theorem tidy (hx : x.tidy = true) (hy : y.tidy = true) : z.tidy = true := by
  cases h
  simp only [tidy_conflict, tidy_node, ConflictForm.rivals, children, List.mem_append] at hx hy ⊢
  refine ⟨?_, ?_⟩
  · rintro o (ho | ho)
    · exact hx.1 o ho
    · exact hy.1 o ho
  · rintro o (ho | ho)
    · exact hx.2 o ho
    · exact hy.2 o ho

theorem census (outer : String) : z.census outer = x.census outer ++ y.census outer := by
  cases h
  simp [ownEntry, Content.isDeclaration]

theorem resolved : z.resolved = x.resolved ++ y.resolved := by
  cases h
  simp [children]

theorem rivals : z.rivals.Perm (x.rivals ++ y.rivals) := by
  cases h
  simp only [rivals_conflict, rivals_node, ConflictForm.rivals, children, List.flatMap_append]
  refine ((perm_interchange _ _ _ _).append_left _).trans ?_
  exact perm_interchange _ _ _ _

theorem leaves : z.leaves.Perm (x.leaves ++ y.leaves) := by
  cases h
  simp only [leaves_conflict, leaves_node, ownLeaf, List.flatMap_append, List.nil_append]
  exact perm_interchange _ _ _ _

theorem opposes {a b : Handle} (hab : x.Opposes a b ∨ y.Opposes a b) : z.Opposes a b := by
  cases h
  simp only [opposes_conflict, opposes_node, declared_node, ConflictForm.rivals, children,
    List.map_append, List.mem_append, List.flatMap_append, Content.isDeclaration,
    Bool.false_eq_true, if_false, List.not_mem_nil, false_or] at hab ⊢
  rcases hab with (⟨ha, hb⟩ | ⟨x, hx, ho⟩ | ⟨x, hx, ho⟩) | (⟨ha, hb⟩ | ⟨x, hx, ho⟩ | ⟨x, hx, ho⟩)
  · exact Or.inl ⟨Or.inl ha, Or.inl hb⟩
  · exact Or.inr (Or.inl ⟨x, Or.inl hx, ho⟩)
  · exact Or.inr (Or.inr ⟨x, Or.inl hx, ho⟩)
  · exact Or.inl ⟨Or.inr ha, Or.inr hb⟩
  · exact Or.inr (Or.inl ⟨x, Or.inr hx, ho⟩)
  · exact Or.inr (Or.inr ⟨x, Or.inr hx, ho⟩)

end Unites

variable {x : Outline} {xs ys : List Outline}

theorem tidy_runs (hs : ∀ x ∈ xs, x.sound = true) (ht : ∀ x ∈ xs, x.tidy = true) :
    ∀ z ∈ runs xs, z.tidy = true := by
  refine (runs_keep hs ht (M := fun zs => ∀ z ∈ zs, z.tidy = true) ?_).1
  intro before after x y z hu h w hw
  rcases List.mem_append.mp hw with hw | hw
  · exact h w (by simp [hw])
  · rcases List.mem_cons.mp hw with rfl | hw
    · exact hu.tidy (h x (by simp)) (h y (by simp))
    · exact h w (by simp [hw])

theorem flatMap_runs {α : Type} {F : Outline → List α}
    (hF : ∀ {x y z}, Unites x y z → F z = F x ++ F y) (hs : ∀ x ∈ xs, x.sound = true) :
    (runs xs).flatMap F = xs.flatMap F := by
  refine (runs_keep hs rfl (M := fun zs => zs.flatMap F = xs.flatMap F) ?_).1
  intro before after x y z hu h
  rw [← h]
  simp [hF hu]

theorem flatMap_runs_perm {α : Type} {F : Outline → List α}
    (hF : ∀ {x y z}, Unites x y z → (F z).Perm (F x ++ F y)) (hs : ∀ x ∈ xs, x.sound = true) :
    ((runs xs).flatMap F).Perm (xs.flatMap F) := by
  refine (runs_keep hs (.refl _) (M := fun zs => (zs.flatMap F).Perm (xs.flatMap F)) ?_).1
  intro before after x y z hu h
  refine List.Perm.trans ?_ h
  simp only [List.flatMap_append, List.flatMap_cons]
  rw [← List.append_assoc (F x)]
  exact ((hF hu).append_right _).append_left _

theorem opposes_runs {a b : Handle} (hs : ∀ x ∈ xs, x.sound = true)
    (h : ∃ x ∈ xs, x.Opposes a b) : ∃ z ∈ runs xs, z.Opposes a b := by
  refine (runs_keep hs h (M := fun zs => ∃ z ∈ zs, z.Opposes a b) ?_).1
  rintro before after x y z hu ⟨w, hw, ho⟩
  simp only [List.mem_append, List.mem_cons] at hw
  rcases hw with hw | rfl | rfl | hw
  · exact ⟨w, by simp [hw], ho⟩
  · exact ⟨z, by simp, hu.opposes (Or.inl ho)⟩
  · exact ⟨z, by simp, hu.opposes (Or.inr ho)⟩
  · exact ⟨w, by simp [hw], ho⟩

theorem runs_of_conflictFree (hxs : ∀ x ∈ xs, x.conflictFree = true) : runs xs = xs := by
  cases xs with
  | nil => rfl
  | cons x xs =>
      rw [runs]
      induction xs generalizing x with
      | nil => rfl
      | cons y ys ih =>
          have hnone : x.unite? y = none := by
            cases x with
            | node => rfl
            | conflict => cases hxs _ List.mem_cons_self
          rw [foldRuns, hnone]
          exact congrArg _ (ih y fun z hz => hxs z (List.mem_cons_of_mem _ hz))

theorem flatMap_congr_of_forall₂ {α : Type} {F : Outline → List α} {R : Outline → Outline → Prop}
    (hR : ∀ {x y}, R x y → F y = F x) (h : List.Forall₂ R xs ys) : ys.flatMap F = xs.flatMap F := by
  induction h with
  | nil => rfl
  | cons hx _ ih => rw [List.flatMap_cons, List.flatMap_cons, hR hx, ih]

theorem flatMap_perm_of_forall₂ {α : Type} {F : Outline → List α} {R : Outline → Outline → Prop}
    (hR : ∀ {x y}, R x y → (F y).Perm (F x)) (h : List.Forall₂ R xs ys) :
    (ys.flatMap F).Perm (xs.flatMap F) := by
  induction h with
  | nil => exact .refl _
  | cons hx _ ih =>
      rw [List.flatMap_cons, List.flatMap_cons]
      exact (hR hx).append ih

theorem plain_of_forall₂ (h : List.Forall₂ Coalesces xs ys)
    (hc : ∀ x ∈ xs, x.conflictFree = true) : ys = xs := by
  induction h with
  | nil => rfl
  | cons hx _ ih => rw [hx.plain (hc _ (by simp)), ih fun y hy => hc y (by simp [hy])]

theorem handles_of_forall₂ (h : List.Forall₂ Coalesces xs ys) :
    ys.flatMap handles ⊆ xs.flatMap handles := by
  induction h with
  | nil => exact List.Subset.refl _
  | cons hx _ ih =>
      intro k hk
      rw [List.flatMap_cons, List.mem_append] at hk ⊢
      exact hk.imp (@hx.handles k) (@ih k)

theorem handles_runs (hs : ∀ x ∈ xs, x.sound = true) :
    (runs xs).flatMap handles ⊆ xs.flatMap handles := by
  refine (runs_keep hs (List.Subset.refl _)
    (M := fun zs => zs.flatMap handles ⊆ xs.flatMap handles) ?_).1
  intro before after x y z hu h
  refine List.Subset.trans ?_ h
  cases hu
  intro k hk
  simp only [List.flatMap_append, List.flatMap_cons, handles_conflict, handles_node, List.mem_append,
    List.mem_cons] at hk ⊢
  grind

theorem opposes_of_forall₂ {a b : Handle} (h : List.Forall₂ Coalesces xs ys)
    (ho : ∃ x ∈ xs, x.Opposes a b) : ∃ y ∈ ys, y.Opposes a b := by
  induction h with
  | nil => exact ho
  | cons hx _ ih =>
      simp only [List.mem_cons, exists_eq_or_imp] at ho ⊢
      exact ho.imp hx.opposes ih

theorem coalesces_node {h : Handle} {c : Content} {n : Notes}
    (hs : ∀ x ∈ xs, x.sound = true) (hys : List.Forall₂ Coalesces (runs xs) ys) :
    Coalesces (node h c n xs) (node h c n ys) where
  plain := by
    intro hc
    rw [conflictFree_node] at hc
    rw [runs_of_conflictFree hc] at hys
    rw [plain_of_forall₂ hys hc]
  census := by
    intro outer
    rw [census_node, census_node, flatMap_congr_of_forall₂ (fun hx => hx.census _) hys,
      flatMap_runs (fun hu => hu.census _) hs]
  resolved := by
    rw [resolved_node, resolved_node, flatMap_congr_of_forall₂ (fun hx => hx.resolved) hys,
      flatMap_runs (fun hu => hu.resolved) hs]
  rivals := by
    rw [rivals_node, rivals_node]
    exact (flatMap_perm_of_forall₂ (fun hx => hx.rivals) hys).trans
      (flatMap_runs_perm (fun hu => hu.rivals) hs)
  leaves := by
    rw [leaves_node, leaves_node]
    exact ((flatMap_perm_of_forall₂ (fun hx => hx.leaves) hys).trans
      (flatMap_runs_perm (fun hu => hu.leaves) hs)).append_left _
  opposes := by
    intro a b hab
    rw [opposes_node] at hab ⊢
    exact opposes_of_forall₂ hys (opposes_runs hs hab)
  handles := by
    rw [handles_node, handles_node]
    exact List.cons_subset_cons _ (List.Subset.trans (handles_of_forall₂ hys) (handles_runs hs))
  content := rfl
  notes := rfl

theorem coalesces (depth : Nat) {x : Outline} (hs : x.sound = true) (ht : x.tidy = true) :
    Coalesces x (x.coalescedWithin depth) := by
  induction depth generalizing x with
  | zero => exact .refl x
  | succ depth ih =>
      cases x with
      | conflict => exact .refl _
      | node h c n cs =>
          rw [sound_node] at hs
          rw [tidy_node] at ht
          rw [coalescedWithin]
          refine coalesces_node hs.2 ?_
          rw [List.forall₂_map_right_iff, List.forall₂_same]
          intro x hx
          have hsx := sound_runs hs.2 x hx
          have htx := tidy_runs hs.2 ht x hx
          cases x with
          | node k d m ds =>
              rw [descend]
              split
              · exact ih hsx htx
              · exact .refl _
          | conflict k form labels m l r =>
              have hsides := (sound_conflict ..).mp hsx
              have htl := (tidy_conflict ..).mp htx
              rw [descend]
              have htr := tidy_of_conflictFree (conflictFree_of_bare hsides.1.2 htl.1)
              exact .conflict hsx htx (ih hsides.2.1 htl.2) (ih hsides.2.2 htr)

end Reconcile.Outline
