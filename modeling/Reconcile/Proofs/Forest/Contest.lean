import Reconcile.Proofs.Forest.Census

namespace Reconcile

namespace Outline

/-- The outlines on the right sides of all conflicts. -/
def rivals (o : Outline) : List Outline :=
  o.subtrees.flatMap fun
    | conflict _ form _ _ _ right => form.rivals right
    | node .. => []

def leaves (o : Outline) : List (Leaf × Notes) :=
  o.subtrees.filterMap fun
    | node _ (.leaf l) notes _ => some (l, notes)
    | _ => none

def declared (o : Outline) : List Handle := (o.census "").map Entry.handle

/-- Whether some conflict sets a node on its right side against a declaration on its left side. -/
def Opposes (o : Outline) (left right : Handle) : Prop :=
  ∃ k form labels n l r, conflict k form labels n l r ∈ o.subtrees ∧ left ∈ l.declared ∧
    right ∈ (form.rivals r).map handle

def isBare : Outline → Bool
  | node _ _ _ [] => true
  | _ => false

mutual

/-- Nothing is below what is on a right side. -/
def tidy : Outline → Bool
  | node _ _ _ children => tidyAll children
  | conflict _ form _ _ left right => (form.rivals right).all isBare && left.tidy

def tidyAll : List Outline → Bool
  | [] => true
  | o :: os => o.tidy && tidyAll os

end

mutual

/-- All conflicts resolved to the left: the declarations on the left side take the place of a
conflict of declarations, and the left scope that of a conflict of headers. -/
def resolved : Outline → List Outline
  | node h content notes children => [node h content notes (resolvedAll children)]
  | conflict _ .declarations _ _ left _ => left.resolved.flatMap children
  | conflict _ .headers _ _ left _ => left.resolved

def resolvedAll : List Outline → List Outline
  | [] => []
  | o :: os => o.resolved ++ resolvedAll os

end

variable {o x y : Outline} {a b : Handle}

@[simp] theorem resolvedAll_eq (os : List Outline) : resolvedAll os = os.flatMap resolved := by
  induction os with
  | nil => rfl
  | cons o os ih => simp [resolvedAll, ih]

@[simp] theorem resolved_node (h : Handle) (c : Content) (n : Notes) (cs : List Outline) :
    (node h c n cs).resolved = [node h c n (cs.flatMap resolved)] := by
  simp [resolved]

@[simp] theorem resolved_declarations (h : Handle) (labels : Labels) (n : Notes) (l r : Outline) :
    (conflict h .declarations labels n l r).resolved = l.resolved.flatMap children := rfl

@[simp] theorem resolved_headers (h : Handle) (labels : Labels) (n : Notes) (l r : Outline) :
    (conflict h .headers labels n l r).resolved = l.resolved := rfl

@[simp] theorem tidyAll_iff (os : List Outline) : tidyAll os = true ↔ ∀ o ∈ os, o.tidy = true := by
  induction os with
  | nil => simp [tidyAll]
  | cons o os ih => simp [tidyAll, ih]

@[simp] theorem tidy_node (h : Handle) (c : Content) (n : Notes) (cs : List Outline) :
    (node h c n cs).tidy = true ↔ ∀ o ∈ cs, o.tidy = true := by
  simp [tidy]

@[simp] theorem tidy_conflict (h : Handle) (form : ConflictForm) (labels : Labels) (n : Notes)
    (l r : Outline) : (conflict h form labels n l r).tidy = true ↔
      (∀ o ∈ form.rivals r, o.isBare = true) ∧ l.tidy = true := by
  simp [tidy]

@[simp] theorem rivals_node (h : Handle) (c : Content) (n : Notes) (cs : List Outline) :
    (node h c n cs).rivals = cs.flatMap rivals := by
  simp only [rivals, subtrees_node, List.flatMap_cons, List.flatMap_assoc, List.nil_append]
  rfl

@[simp] theorem rivals_conflict (h : Handle) (form : ConflictForm) (labels : Labels) (n : Notes)
    (l r : Outline) : (conflict h form labels n l r).rivals =
      form.rivals r ++ (l.rivals ++ r.rivals) := by
  simp [rivals]

def ownLeaf (c : Content) (n : Notes) : List (Leaf × Notes) :=
  match c with
  | .leaf l => [(l, n)]
  | _ => []

@[simp] theorem leaves_node (h : Handle) (c : Content) (n : Notes) (cs : List Outline) :
    (node h c n cs).leaves = ownLeaf c n ++ cs.flatMap leaves := by
  cases c <;> simp [leaves, ownLeaf, List.filterMap_flatMap] <;> rfl

@[simp] theorem leaves_conflict (h : Handle) (form : ConflictForm) (labels : Labels) (n : Notes)
    (l r : Outline) : (conflict h form labels n l r).leaves = l.leaves ++ r.leaves := by
  simp [leaves]

theorem map_handle_census (outer : String) (o : Outline) :
    (o.census outer).map Entry.handle = o.declared := by
  induction o generalizing outer with
  | node h c n cs ih =>
      have hcs (outer : String) : (cs.flatMap (census outer)).map Entry.handle = cs.flatMap declared := by
        rw [List.map_flatMap]
        exact List.flatMap_congr fun o ho => ih o ho outer
      rw [declared, census_node, census_node, List.map_append, List.map_append, hcs, hcs]
      unfold ownEntry
      split <;> rfl
  | conflict h form labels n l r ihl _ => exact ihl outer

@[simp] theorem declared_node (h : Handle) (c : Content) (n : Notes) (cs : List Outline) :
    (node h c n cs).declared = (if c.isDeclaration then [h] else []) ++ cs.flatMap declared := by
  rw [declared, census_node, List.map_append, List.map_flatMap,
    List.flatMap_congr fun o _ => map_handle_census (c.qualify "") o]
  unfold ownEntry
  split <;> rfl

@[simp] theorem declared_conflict (h : Handle) (form : ConflictForm) (labels : Labels) (n : Notes)
    (l r : Outline) : (conflict h form labels n l r).declared = l.declared := rfl

theorem declared_subset (o : Outline) : o.declared ⊆ o.handles :=
  (sublist_handles_census "" o).subset

@[simp] theorem opposes_node (h : Handle) (c : Content) (n : Notes) (cs : List Outline) :
    (node h c n cs).Opposes a b ↔ ∃ x ∈ cs, x.Opposes a b := by
  simp only [Opposes, subtrees_node, List.mem_cons, reduceCtorEq, List.mem_flatMap, false_or]
  grind

@[simp] theorem opposes_conflict (h : Handle) (form : ConflictForm) (labels : Labels) (n : Notes)
    (l r : Outline) : (conflict h form labels n l r).Opposes a b ↔
      (a ∈ l.declared ∧ b ∈ (form.rivals r).map handle) ∨ l.Opposes a b ∨ r.Opposes a b := by
  simp only [Opposes, subtrees_conflict, List.mem_cons, List.mem_append]
  constructor
  · rintro ⟨k, form', labels', n', l', r', he | hl | hr, ha, hb⟩
    · cases he
      exact Or.inl ⟨ha, hb⟩
    · exact Or.inr (Or.inl ⟨k, form', labels', n', l', r', hl, ha, hb⟩)
    · exact Or.inr (Or.inr ⟨k, form', labels', n', l', r', hr, ha, hb⟩)
  · rintro (⟨ha, hb⟩ | ⟨k, form', labels', n', l', r', hl, ha, hb⟩ |
      ⟨k, form', labels', n', l', r', hr, ha, hb⟩)
    · exact ⟨h, form, labels, n, l, r, Or.inl rfl, ha, hb⟩
    · exact ⟨k, form', labels', n', l', r', Or.inr (Or.inl hl), ha, hb⟩
    · exact ⟨k, form', labels', n', l', r', Or.inr (Or.inr hr), ha, hb⟩

theorem conflictFree_of_bare {form : ConflictForm} {r : Outline} (hs : form.suits r = true)
    (hb : ∀ o ∈ form.rivals r, o.isBare = true) : r.conflictFree = true := by
  have bare {o : Outline} (ho : o.isBare = true) : o.conflictFree = true := by
    match o, ho with
    | node _ _ _ [], _ => simp
  cases form with
  | headers => exact bare (hb r (by simp [ConflictForm.rivals]))
  | declarations =>
      obtain ⟨h, n, cs, rfl⟩ := ConflictForm.exists_tree hs
      rw [conflictFree_node]
      exact fun o ho => bare (hb o ho)

theorem perm_interchange {α : Type} (as bs cs ds : List α) :
    (as ++ bs ++ (cs ++ ds)).Perm (as ++ cs ++ (bs ++ ds)) := by
  rw [List.append_assoc, List.append_assoc]
  exact (List.perm_append_comm_assoc bs cs ds).append_left as

theorem tidy_of_conflictFree (hc : o.conflictFree = true) : o.tidy = true := by
  induction o with
  | node h c n cs ih =>
      rw [conflictFree_node] at hc
      rw [tidy_node]
      exact fun o ho => ih o ho (hc o ho)
  | conflict => cases hc

end Outline

theorem exists_rest_plug {α : Type} {F : Outline → List α}
    (hF : ∀ fr : Frame, ∃ rest, ∀ o, (F (fr.fill o)).Perm (F o ++ rest)) (path : List Frame) :
    ∃ rest, ∀ o : Outline, (F (o.plug path)).Perm (F o ++ rest) := by
  induction path with
  | nil => exact ⟨[], fun o => by simp [Outline.plug]⟩
  | cons fr path ih =>
      obtain ⟨rest, h⟩ := ih
      obtain ⟨rest', h'⟩ := hF fr
      refine ⟨rest' ++ rest, fun o => (h (fr.fill o)).trans ?_⟩
      rw [← List.append_assoc]
      exact (h' o).append_right rest

theorem perm_plug {α : Type} {F : Outline → List α}
    (hF : ∀ fr : Frame, ∃ rest, ∀ o, (F (fr.fill o)).Perm (F o ++ rest)) (path : List Frame)
    {x y : Outline} {new : List α} (h : (F y).Perm (F x ++ new)) :
    (F (y.plug path)).Perm (F (x.plug path) ++ new) := by
  obtain ⟨rest, hrest⟩ := exists_rest_plug hF path
  refine (hrest y).trans ((h.append_right rest).trans ?_)
  refine List.Perm.trans ?_ ((hrest x).symm.append_right new)
  rw [List.append_assoc, List.append_assoc]
  exact List.perm_append_comm.append_left _

namespace Frame

theorem rivals_fill (fr : Frame) : ∃ rest, ∀ o : Outline, (fr.fill o).rivals.Perm (o.rivals ++ rest) := by
  cases fr with
  | node h c n before after =>
      refine ⟨before.flatMap Outline.rivals ++ after.flatMap Outline.rivals, fun o => ?_⟩
      simp only [fill, Outline.rivals_node, List.flatMap_append, List.flatMap_cons]
      exact List.perm_append_comm_assoc ..
  | left h form labels n r =>
      refine ⟨form.rivals r ++ r.rivals, fun o => ?_⟩
      simp only [fill, Outline.rivals_conflict]
      exact List.perm_append_comm_assoc ..

theorem leaves_fill (fr : Frame) : ∃ rest, ∀ o : Outline, (fr.fill o).leaves.Perm (o.leaves ++ rest) := by
  cases fr with
  | node h c n before after =>
      refine ⟨Outline.ownLeaf c n ++ before.flatMap Outline.leaves ++ after.flatMap Outline.leaves,
        fun o => ?_⟩
      simp only [fill, Outline.leaves_node, List.flatMap_append, List.flatMap_cons]
      rw [← List.append_assoc]
      exact List.perm_append_comm_assoc ..
  | left h form labels n r =>
      refine ⟨r.leaves, fun o => ?_⟩
      simp only [fill, Outline.leaves_conflict]
      exact .refl _

def tidy : Frame → Bool
  | node _ _ _ before after => (before ++ after).all Outline.tidy
  | left _ form _ _ right => (form.rivals right).all Outline.isBare

theorem tidy_fill (fr : Frame) (o : Outline) :
    (fr.fill o).tidy = true ↔ fr.tidy = true ∧ o.tidy = true := by
  cases fr with
  | node h c n before after =>
      simp only [fill, Outline.tidy_node, tidy, List.all_eq_true, List.mem_append, List.mem_cons]
      grind
  | left h form labels n r => simp [fill, tidy]

end Frame

namespace Outline

variable {path : List Frame} {x y : Outline} {a b : Handle}

theorem rivals_plug (path : List Frame) : x.rivals ⊆ (plug path x).rivals := by
  obtain ⟨rest, hrest⟩ := exists_rest_plug Frame.rivals_fill path
  exact fun z hz => (hrest x).mem_iff.mpr (List.mem_append_left _ hz)

theorem rivals_subset (o : Outline) : o.rivals ⊆ o.subtrees := by
  have rivals_subtrees {form : ConflictForm} {r x : Outline} (hx : x ∈ form.rivals r) :
      x ∈ r.subtrees := by
    cases form with
    | headers =>
        cases List.mem_singleton.mp hx
        exact r.mem_subtrees_self
    | declarations =>
        cases r with
        | node h c n cs =>
            rw [subtrees_node]
            exact List.mem_cons_of_mem _ (List.mem_flatMap.mpr ⟨x, hx, x.mem_subtrees_self⟩)
        | conflict => cases hx
  induction o with
  | node h c n cs ih =>
      rw [rivals_node, subtrees_node]
      intro x hx
      obtain ⟨o, ho, hx⟩ := List.mem_flatMap.mp hx
      exact List.mem_cons_of_mem _ (List.mem_flatMap.mpr ⟨o, ho, ih o ho hx⟩)
  | conflict h form labels n l r ihl ihr =>
      rw [rivals_conflict, subtrees_conflict]
      intro x hx
      simp only [List.mem_append, List.mem_cons] at hx ⊢
      rcases hx with hx | hx | hx
      · exact Or.inr (Or.inr (rivals_subtrees hx))
      · exact Or.inr (Or.inl (ihl hx))
      · exact Or.inr (Or.inr (ihr hx))

theorem tidy_plug (hx : (plug path x).tidy = true) (h : x.tidy = true → y.tidy = true) :
    (plug path y).tidy = true := by
  induction path generalizing x y with
  | nil => exact h hx
  | cons fr path ih =>
      refine ih hx fun hfill => ?_
      rw [fr.tidy_fill] at hfill ⊢
      exact ⟨hfill.1, h hfill.2⟩

theorem opposes_plug (hd : x.declared ⊆ y.declared) (h : x.Opposes a b → y.Opposes a b)
    (hx : (plug path x).Opposes a b) : (plug path y).Opposes a b := by
  induction path generalizing x y with
  | nil => exact h hx
  | cons fr path ih =>
      refine ih ?_ ?_ hx
      · cases fr with
        | node k c n before after =>
            intro k hk
            simp only [Frame.fill, declared_node, List.flatMap_append, List.flatMap_cons,
              List.mem_append] at hk ⊢
            rcases hk with hk | hk | hk | hk
            · exact Or.inl hk
            · exact Or.inr (Or.inl hk)
            · exact Or.inr (Or.inr (Or.inl (hd hk)))
            · exact Or.inr (Or.inr (Or.inr hk))
        | left => exact hd
      · cases fr with
        | node k c n before after =>
            simp only [Frame.fill, opposes_node, List.mem_append, List.mem_cons]
            rintro ⟨z, hz | rfl | hz, ho⟩
            · exact ⟨z, Or.inl hz, ho⟩
            · exact ⟨y, Or.inr (Or.inl rfl), h ho⟩
            · exact ⟨z, Or.inr (Or.inr hz), ho⟩
        | left k form labels n r =>
            simp only [Frame.fill, opposes_conflict]
            rintro (⟨ha, hb⟩ | ho | ho)
            · exact Or.inl ⟨hd ha, hb⟩
            · exact Or.inr (Or.inl (h ho))
            · exact Or.inr (Or.inr ho)

end Outline

end Reconcile
