import Reconcile.Proofs.Layout.Press
import Reconcile.Proofs.Merge.Endurance
import Reconcile.Proofs.Merge.Accord
import Reconcile.Proofs.Merge.Correspondence
import Reconcile.Proofs.Merge.Sides
import Reconcile.Report

namespace Reconcile

def Outline.contents (o : Outline) : List Content := o.subtrees.filterMap Outline.content?

namespace Outline

@[simp] theorem contents_node (h : Handle) (c : Content) (n : Notes) (cs : List Outline) :
    (node h c n cs).contents = c :: cs.flatMap contents := by
  have hcs : (cs.flatMap subtrees).filterMap content? = cs.flatMap contents :=
    List.filterMap_flatMap
  rw [contents, subtrees_node, ← hcs]
  rfl

@[simp] theorem contents_conflict (h : Handle) (form : ConflictForm) (labels : Labels) (n : Notes)
    (l r : Outline) : (conflict h form labels n l r).contents = l.contents ++ r.contents := by
  rw [contents, subtrees_conflict, contents, contents, ← List.filterMap_append]
  rfl

end Outline

theorem Frame.contents_fill (fr : Frame) :
    ∃ rest, ∀ o : Outline, (fr.fill o).contents.Perm (o.contents ++ rest) := by
  cases fr with
  | node h c n before after =>
      refine ⟨c :: before.flatMap Outline.contents ++ after.flatMap Outline.contents, fun o => ?_⟩
      simp only [fill, Outline.contents_node, List.flatMap_append, List.flatMap_cons]
      rw [← List.cons_append]
      exact List.perm_append_comm_assoc ..
  | left h form labels n r => exact ⟨r.contents, fun o => by simp [fill]⟩

def Content.isMerged (c : Content) : Bool := c = .tree || c.isDeclaration

namespace Merge

open Outline (plug)

variable {o : Options} {P Q : Draft} {e : Event} {k : Handle} {labels : Labels} {adds : Bool}
  {j : Nat} {x y : Outline} {path : List Frame} {es : List (String × Event)}

theorem Edit.merged (h : Edit labels k adds j x y) (hx : ∀ c ∈ x.contents, c.isMerged = true) :
    ∀ c ∈ y.contents, c.isMerged = true := by
  cases h with
  | grow h c n cs d m hc hd =>
      have hd' : d.isMerged = true := by simp [Content.isMerged, hd]
      simp only [Outline.contents_node, List.flatMap_append, List.flatMap_cons, List.flatMap_nil,
        List.forall_mem_cons, List.forall_mem_append] at hx ⊢
      exact ⟨hx.1, hx.2, ⟨hd', by simp⟩, by simp⟩
  | annotate => simpa using hx
  | unite h l n cs l' =>
      simp only [Outline.contents_node, List.forall_mem_cons] at hx ⊢
      exact ⟨rfl, hx.2⟩
  | contest | join | oppose =>
      simp only [Outline.contents_node, Outline.contents_conflict, List.flatMap_append,
        List.flatMap_cons, List.flatMap_nil, List.forall_mem_cons, List.forall_mem_append] at hx ⊢
      grind [Content.isMerged, Content.isDeclaration]

theorem merged_plug (path : List Frame) (hp : ∀ c ∈ (plug path x).contents, c.isMerged = true)
    (h : (∀ c ∈ x.contents, c.isMerged = true) → ∀ c ∈ y.contents, c.isMerged = true) :
    ∀ c ∈ (plug path y).contents, c.isMerged = true := by
  obtain ⟨rest, hrest⟩ := exists_rest_plug Frame.contents_fill path
  intro c hc
  rcases List.mem_append.mp ((hrest y).mem_iff.mp hc) with hc | hc
  · refine h (fun c hc => hp c ?_) c hc
    exact (hrest x).mem_iff.mpr (List.mem_append_left _ hc)
  · exact hp c ((hrest x).mem_iff.mpr (List.mem_append_right _ hc))

/-- Only what a merge makes is in a draft, and only bare scopes are left loose. -/
structure Draft.Merged (P : Draft) : Prop where
  contents : ∀ c ∈ P.outline.contents, c.isMerged = true
  loose : ∀ x ∈ P.loose, ∃ h s n, x = .node h (.scope s) n []

theorem Draft.merged_empty : empty.Merged where
  contents := by simp [empty, Content.isMerged]
  loose := by simp [empty]

theorem Step.merged (hs : Step o P e Q) (hP : P.Merged) : Q.Merged := by
  have hcontents := hP.contents
  cases hs.alters with
  | edited labels path x y j entered conflicts hp he =>
      rw [hp] at hcontents
      exact ⟨merged_plug path hcontents he.merged, hP.loose⟩
  | grown path c d n m cs entered hp hc hd =>
      rw [hp] at hcontents
      have he : Edit o.labels P.next true 1 _ _ := .grow P.current c n cs d m hc hd
      exact ⟨merged_plug path hcontents he.merged, hP.loose⟩
  | loosened s n =>
      refine ⟨hcontents, fun x hx => ?_⟩
      rcases List.mem_append.mp hx with hx | hx
      · exact hP.loose x hx
      · exact ⟨_, s, n, List.mem_singleton.mp hx⟩
  | kept => exact ⟨hcontents, hP.loose⟩

theorem Runs.merged (hr : Runs o .empty es Q) : Q.Merged :=
  hr.invariant (I := Draft.Merged) Draft.valid_empty (fun _ hs => hs.merged) Draft.merged_empty

end Merge

namespace Outline

theorem contents_runs {xs : List Outline} (hs : ∀ x ∈ xs, x.sound = true) :
    (runs xs).flatMap contents ⊆ xs.flatMap contents := by
  refine (runs_keep hs (List.Subset.refl _)
    (M := fun zs => zs.flatMap contents ⊆ xs.flatMap contents) ?_).1
  intro before after x y z hu h
  refine List.Subset.trans ?_ h
  cases hu
  intro c hc
  simp only [List.flatMap_append, List.flatMap_cons, contents_conflict, contents_node,
    List.mem_append, List.mem_cons] at hc ⊢
  grind

theorem contents_coalescedWithin (depth : Nat) {x : Outline} (hs : x.sound = true) :
    (x.coalescedWithin depth).contents ⊆ x.contents := by
  induction depth generalizing x with
  | zero => exact List.Subset.refl _
  | succ depth ih =>
      cases x with
      | conflict => exact List.Subset.refl _
      | node h c n cs =>
          rw [sound_node] at hs
          have hdescend (x : Outline) (hx : x ∈ runs cs) :
              (descend (coalescedWithin depth) x).contents ⊆ x.contents := by
            have hsx := sound_runs hs.2 x hx
            cases x with
            | node k d m ds =>
                rw [descend]
                split
                · exact ih hsx
                · exact List.Subset.refl _
            | conflict k form labels m l r =>
                have hsides := ((sound_conflict ..).mp hsx).2
                rw [descend, contents_conflict, contents_conflict]
                exact List.append_subset.mpr
                  ⟨List.Subset.trans (ih hsides.1) (List.subset_append_left _ _),
                    List.Subset.trans (ih hsides.2) (List.subset_append_right _ _)⟩
          rw [coalescedWithin, contents_node, contents_node, List.flatMap_map]
          refine List.cons_subset_cons _ (List.Subset.trans ?_ (contents_runs hs.2))
          intro c hc
          obtain ⟨x, hx, hc⟩ := List.mem_flatMap.mp hc
          exact List.mem_flatMap.mpr ⟨x, hx, hdescend x hx hc⟩

end Outline

namespace Merge

variable {o : Options} {trees : List Forest} {os : List Outline} {Q : Draft} {out : Output} {O : Outline}

theorem Outcome.isMerged (h : Outcome o trees os Q out O) : ∀ c ∈ O.contents, c.isMerged = true := by
  intro c hc
  rw [h.coalesced] at hc
  exact h.runs.merged.contents c (Outline.contents_coalescedWithin _ h.valid.sound hc)

end Merge

namespace Merge

variable {o : Options} {s s' : State}

namespace State

theorem place_conflicts {content : Content} {notes : Notes} {keys : List String} {h : Handle}
    (hp : s.place content notes keys = .ok (s', h)) : s'.conflicts = s.conflicts := by
  obtain ⟨⟨f, k⟩, -, hp⟩ := exists_of_bind_eq_ok hp
  cases hp
  rfl

theorem placeScope_conflicts (hk : o.keep ≠ .both) {scope : Scope} {notes : Notes} {h : Handle}
    (hp : s.placeScope o scope notes = .ok (s', h)) : s'.conflicts = s.conflicts := by
  obtain ⟨name, -, hp⟩ := exists_of_bind_eq_ok hp
  obtain ⟨under, -, hp⟩ := exists_of_bind_eq_ok hp
  cases under with
  | none => exact place_conflicts hp
  | some previous =>
      obtain ⟨kind, -, hp⟩ := exists_of_bind_eq_ok hp
      split at hp
      · obtain ⟨f, -, hp⟩ := exists_of_bind_eq_ok hp
        cases hp
        rfl
      · split at hp
        · cases hp
          rfl
        · obtain ⟨f, -, hp⟩ := exists_of_bind_eq_ok hp
          cases hp
          rfl
        · next hboth => exact absurd hboth hk

theorem placeLeaf_conflicts (hk : o.keep ≠ .both) {leaf : Leaf} {notes : Notes}
    (hp : s.placeLeaf o leaf notes = .ok s') : s'.conflicts = s.conflicts := by
  obtain ⟨name, -, hp⟩ := exists_of_bind_eq_ok hp
  dsimp only at hp
  split at hp
  · obtain ⟨⟨t, h⟩, ht, hp⟩ := exists_of_bind_eq_ok hp
    cases hp
    exact place_conflicts ht
  · obtain ⟨kind, -, hp⟩ := exists_of_bind_eq_ok hp
    split at hp
    · obtain ⟨f, -, hp⟩ := exists_of_bind_eq_ok hp
      cases hp
      rfl
    · split at hp
      · cases hp
        rfl
      · split at hp
        · obtain ⟨anchor, -, hp⟩ := exists_of_bind_eq_ok hp
          obtain ⟨below, -, hp⟩ := exists_of_bind_eq_ok hp
          obtain ⟨f, -, hp⟩ := exists_of_bind_eq_ok hp
          cases hp
          rfl
        · obtain ⟨f, -, hp⟩ := exists_of_bind_eq_ok hp
          cases hp
          rfl
      · next hboth => exact absurd hboth hk

theorem step_conflicts (hk : o.keep ≠ .both) {e : Event} (hs : s.step o e = .ok s') :
    s'.conflicts = s.conflicts := by
  cases e with
  | enter scope notes =>
      obtain ⟨⟨t, h⟩, ht, hs⟩ := exists_of_bind_eq_ok hs
      cases hs
      change t.conflicts = s.conflicts
      exact placeScope_conflicts hk ht
  | leave =>
      cases hs
      rfl
  | declare leaf notes => exact placeLeaf_conflicts hk hs
  | remark comments =>
      obtain ⟨f, -, hs⟩ := exists_of_bind_eq_ok hs
      cases hs
      rfl
  | carry conflict =>
      obtain ⟨⟨f, h⟩, -, hs⟩ := exists_of_bind_eq_ok hs
      obtain ⟨f', -, hs⟩ := exists_of_bind_eq_ok hs
      cases hs
      rfl

end State

theorem mergeAll_conflicts (hk : o.keep ≠ .both) {trees : List Forest} {out : Output}
    (hm : mergeAll o trees = .ok out) : out.conflicts = [] := by
  obtain ⟨s, hs, hm⟩ := exists_of_bind_eq_ok hm
  obtain ⟨f, -, hm⟩ := exists_of_bind_eq_ok hm
  cases hm
  refine foldlM_keeps (P := fun s => s.conflicts = []) (fun s tree s' h hs => ?_) hs rfl
  obtain ⟨x, -, h⟩ := exists_of_bind_eq_ok h
  exact foldlM_keeps (P := fun s => s.conflicts = [])
    (fun s e s' he hs => (State.step_conflicts hk he).trans hs) h hs

end Merge

theorem Outline.tidy_iff {o : Outline} (hs : o.sound = true) :
    o.tidy = true ↔ ∀ x ∈ o.rivals, x.isBare = true := by
  induction o with
  | node h c n cs ih =>
      have hcs := ((sound_node ..).mp hs).2
      rw [tidy_node, rivals_node, List.forall_mem_flatMap]
      exact forall₂_congr fun x hx => ih x hx (hcs x hx)
  | conflict h form labels n l r ihl ihr =>
      obtain ⟨⟨-, hsuits⟩, hl, hr⟩ := (sound_conflict ..).mp hs
      rw [tidy_conflict, rivals_conflict, List.forall_mem_append, List.forall_mem_append, ihl hl]
      constructor
      · rintro ⟨hb, hl⟩
        exact ⟨hb, hl, (ihr hr).mp (tidy_of_conflictFree (conflictFree_of_bare hsuits hb))⟩
      · rintro ⟨hb, hl, -⟩
        exact ⟨hb, hl⟩

namespace Layout

open Outline

variable {style : Style} {grouped : Bool} {o z : Outline}

theorem infix_siblingLines {os : List Outline} (ho : o ∈ os) (level : Nat) :
    lines style level grouped o <:+: siblingLines style level grouped os := by
  induction os with
  | nil => cases ho
  | cons x os ih =>
      rw [siblingLines]
      rcases List.mem_cons.mp ho with rfl | ho
      · rw [List.append_assoc]
        exact (List.prefix_append _ _).isInfix
      · exact (ih ho).trans (List.suffix_append _ _).isInfix

theorem infix_lines_node {h : Handle} {c : Content} {n : Notes} {cs : List Outline}
    (hc : c.isMerged = true) (hs : (node h c n cs).sound = true) (level : Nat) :
    ∃ deeper, siblingLines style deeper false cs <:+: lines style level false (node h c n cs) := by
  rw [sound_node] at hs
  cases c with
  | tree =>
      refine ⟨level, ?_⟩
      rw [lines]
      exact (List.suffix_append _ _).isInfix
  | scope s =>
      refine ⟨level + 1, ?_⟩
      cases cs with
      | nil => simp [siblingLines]
      | cons x xs =>
          refine ⟨noteLines style level n ++ [.code level s.header], [.code level "end"], ?_⟩
          simp [lines]
  | leaf l =>
      cases hs.1.resolve_left (by simp [Content.isContainer])
      exact ⟨level, by simp [siblingLines]⟩
  | visibilityGroup | group => cases hc

theorem infix_lines_conflict {h : Handle} {form : ConflictForm} {labels : Labels} {n : Notes}
    {l r : Outline} (level : Nat) : ∃ deeper, bodyLines style deeper false l <:+:
      lines style level false (.conflict h form labels n l r) := by
  cases form with
  | declarations =>
      refine ⟨level, [.marker ("<<<<<<< " ++ labels.left)], .marker "=======" ::
        (bodyLines style level false r ++ [.marker (">>>>>>> " ++ labels.right)]), ?_⟩
      simp [lines]
  | headers =>
      refine ⟨level + 1, ?_⟩
      rw [lines_headers]
      split
      · next hempty =>
          cases l with
          | node k c m cs =>
              cases List.isEmpty_iff.mp hempty
              simp [bodyLines, siblingLines]
          | conflict => simp [bodyLines]
      · exact (List.prefix_append _ _).isInfix.trans (List.suffix_append _ _).isInfix

theorem not_mem_of_conflictFree {k : Handle} {form : ConflictForm} {labels : Labels} {n : Notes}
    {l r : Outline} (hc : o.conflictFree = true) : .conflict k form labels n l r ∉ o.subtrees := by
  induction o with
  | node h c m cs ih =>
      rw [conflictFree_node] at hc
      simp only [subtrees_node, List.mem_cons, reduceCtorEq, false_or, List.mem_flatMap, not_exists,
        not_and]
      exact fun x hx => ih x hx (hc x hx)
  | conflict => cases hc

/-- Each conflict is laid out as a region of its own. -/
theorem exists_region {k : Handle} {form : ConflictForm} {labels : Labels} {n : Notes} {l r : Outline}
    (hs : o.sound = true) (ht : o.tidy = true) (hm : ∀ c ∈ o.contents, c.isMerged = true)
    (hz : .conflict k form labels n l r ∈ o.subtrees) (level : Nat) :
    (∃ deeper, lines style deeper false (.conflict k form labels n l r) <:+:
        lines style level false o) ∧
      (o.content?.isSome → ∃ deeper, lines style deeper false (.conflict k form labels n l r) <:+:
        bodyLines style level false o) := by
  induction o generalizing level with
  | node h c m cs ih =>
      rw [contents_node, List.forall_mem_cons] at hm
      have hsound := ((sound_node ..).mp hs).2
      rw [tidy_node] at ht
      rw [subtrees_node, List.mem_cons, List.mem_flatMap] at hz
      obtain ⟨x, hx, hz⟩ := hz.resolve_left nofun
      have hbody (level : Nat) : ∃ deeper, lines style deeper false (.conflict k form labels n l r) <:+:
          siblingLines style level false cs := by
        obtain ⟨deeper, h⟩ := (ih x hx (hsound x hx) (ht x hx)
          (fun c hc => hm.2 c (List.mem_flatMap.mpr ⟨x, hx, hc⟩)) hz level).1
        exact ⟨deeper, h.trans (infix_siblingLines hx level)⟩
      obtain ⟨inner, hinner⟩ := @infix_lines_node style h c m cs hm.1 hs level
      obtain ⟨deeper, hdeeper⟩ := hbody inner
      exact ⟨⟨deeper, hdeeper.trans hinner⟩, fun _ => hbody level⟩
  | conflict h form' labels' m l' r' ihl _ =>
      refine ⟨?_, fun hc => by cases hc⟩
      rw [sound_conflict] at hs
      rw [tidy_conflict] at ht
      rw [contents_conflict, List.forall_mem_append] at hm
      rw [subtrees_conflict, List.mem_cons, List.mem_append] at hz
      -- Nothing on a right side is in conflict, so what is further in is on the left side.
      have hr : .conflict k form labels n l r ∉ r'.subtrees :=
        not_mem_of_conflictFree (conflictFree_of_bare hs.1.2 ht.1)
      rcases hz with hz | hz | hz
      · cases hz
        exact ⟨level, List.infix_rfl⟩
      · obtain ⟨inner, hinner⟩ := @infix_lines_conflict style h form' labels' m l' r' level
        have hcontent : l'.content?.isSome := by
          cases l' with
          | node => rfl
          | conflict => cases hs.1.1
        obtain ⟨deeper, hdeeper⟩ := (ihl hs.2.1 ht.2 hm.1 hz inner).2 hcontent
        exact ⟨deeper, hdeeper.trans hinner⟩
      · exact absurd hz hr

end Layout

namespace Merge

open Layout

variable {style : Style} {o : Options} {trees : List Forest} {os : List Outline} {Q : Draft}
  {out : Output} {O : Outline} {c : Conflict} {l : Leaf}

/-- A text shows the right declaration of a record as it is printed in the region of its conflict, but
at the left edge. -/
def ShownInRegion (style : Style) (O : Outline) (c : Conflict) (text : String) : Prop :=
  ∃ (k : Handle) (labels : Labels) (n : Notes) (left right x : Outline) (level : Nat)
    (above before after below : List Line),
    .conflict k .declarations labels n left right ∈ O.subtrees ∧ c.left ∈ left.handles ∧
    x ∈ right.children ∧ x.handle = c.right ∧
    treeLines style O = above ++
      (.marker ("<<<<<<< " ++ labels.left) :: bodyLines style level false left ++
        .marker "=======" :: (before ++ lines style level false x ++ after) ++
          [.marker (">>>>>>> " ++ labels.right)]) ++ below ∧
    text = Layout.text style (lines style 0 false x) ∧
    ((∀ t ∈ x.texts, Unbroken t) → textLines text = printed style (lines style 0 false x) ++ [[]]) ∧
    printed style (lines style level false x) = (lines style 0 false x).map (indented style level)

theorem Outcome.attested (h : Outcome o trees os Q out O) (hc : c ∈ out.conflicts) :
    c.right ∈ Q.loose.map Outline.handle ∨ O.Opposes c.left c.right := by
  rw [h.conflicts] at hc
  have hQ := h.runs.invariant (I := fun P => ∀ r ∈ P.conflicts,
      r.right ∈ P.loose.map Outline.handle ∨ P.outline.Opposes r.left r.right)
    Draft.valid_empty (fun hv hs => hs.attested hv) (by simp [Draft.empty])
  exact (hQ c hc).imp_right h.coalesces.opposes

theorem Outcome.exists_conflict (h : Outcome o trees os Q out O) (hO : O.sound = true)
    (hc : c ∈ out.conflicts) (hl : out.forest.kind c.right = .ok (.plain (.leaf l))) :
    ∃ k labels n left right x, .conflict k .declarations labels n left right ∈ O.subtrees ∧
      c.left ∈ left.handles ∧ x ∈ right.children ∧ x.handle = c.right := by
  have hscope {p : Option Handle} {s : Scope} {n : Notes} {cs : List Outline}
      (hx : (Outline.node c.right (.scope s) n cs).Holds out.forest.look p) : False := by
    have hk := Forest.kind_of_look ((Outline.holds_node ..).mp hx).1
    cases hk.symm.trans hl
  rcases h.attested hc with hloose | ⟨k, form, labels, n, left, right, hz, hleft, hright⟩
  · obtain ⟨x, hx, hxr⟩ := List.mem_map.mp hloose
    obtain ⟨r, s, n, rfl⟩ := h.runs.merged.loose x hx
    cases hxr
    exact (hscope (h.loose _ hx)).elim
  · obtain ⟨x, hx, hxr⟩ := List.mem_map.mp hright
    cases form with
    | declarations => exact ⟨k, labels, n, left, right, x, hz, left.declared_subset hleft, hx, hxr⟩
    | headers =>
        cases List.mem_singleton.mp hx
        obtain ⟨⟨-, hsuits⟩, -⟩ := (Outline.sound_conflict ..).mp (Outline.sound_of_mem_subtrees hO hz)
        obtain ⟨r, s, m, rs, rfl⟩ := ConflictForm.exists_scope hsuits
        cases hxr
        obtain ⟨p, hp⟩ := h.holds.of_mem_subtrees hz
        exact (hscope ((Outline.holds_conflict ..).mp hp).2.2).elim

theorem Outcome.tidy (h : Outcome o trees os Q out O) (hO : O.sound = true) : O.tidy = true := by
  rw [Outline.tidy_iff hO]
  intro x hx
  exact (Outline.tidy_iff h.valid.sound).mp h.runs.tidy x (h.coalesces.rivals.mem_iff.mp hx)

theorem Outcome.shownInRegion (h : Outcome o trees os Q out O) (hO : O.sound = true)
    (hc : c ∈ out.conflicts) (hl : out.forest.kind c.right = .ok (.plain (.leaf l))) {r : Report}
    (hr : Report.ofConflict style out.forest c = .ok r) : ShownInRegion style O c r.right := by
  obtain ⟨k, labels, n, left, right, x, hz, hleft, hx, hxr⟩ := h.exists_conflict hO hc hl
  have hsound := (Outline.sound_conflict ..).mp (Outline.sound_of_mem_subtrees hO hz)
  obtain ⟨t, m, rs, rfl⟩ := ConflictForm.exists_tree hsound.1.2
  have hxO : x ∈ O.subtrees := by
    refine Outline.subtrees_subset hz (Outline.rivals_subset _ ?_)
    rw [Outline.rivals_conflict]
    exact List.mem_append_left _ hx
  obtain ⟨p, hp⟩ := h.holds.of_mem_subtrees hxO
  have htext : r.right = Layout.text style (lines style 0 false x) := by
    obtain ⟨left', -, hr⟩ := exists_of_bind_eq_ok hr
    obtain ⟨right', hright, hr⟩ := exists_of_bind_eq_ok hr
    rw [Forest.renderNode, ← hxr, Forest.outline_of_holds hp
      ((Outline.sublist_handles_of_mem_subtrees hxO).nodup h.nodup)] at hright
    cases hright
    cases hr
    rfl
  obtain ⟨level, above, below, hregion⟩ := (exists_region hO (h.tidy hO) h.isMerged hz 0).1
  obtain ⟨before, after, hbody⟩ := @infix_siblingLines style false x rs hx level
  refine ⟨k, labels, n, left, _, x, level, sigilLines style O ++ above, before, after, below, hz, hleft,
    hx, hxr, ?_, htext, ?_, printed_lines (Outline.sound_of_mem_subtrees hO hxO) level false⟩
  · rw [treeLines_eq, ← hregion, lines, bodyLines, hbody]
    simp
  · intro ht
    rw [htext]
    exact textLines_text (unbroken_lines ht 0 false).1

/-- What is printed of a node is its layout, and at some level it is what is printed at the left edge,
indented: the level comes before every line but blank lines and markers. The press comes out of a node
at the level, and in or outside of a visibility group, as it went in. So the right text of a report on
two leaves is what stands in the region of their conflict in the merged tree. -/
theorem printed_at_every_level :
    (∀ f : Forest, f.WellFormed → ∀ h < f.size, ∃ o, f.outline h = .ok o ∧
      ((∀ t ∈ o.texts, Unbroken t) → ∀ (style : Style) (p : Press), ∃ new,
        new = lines style p.level p.grouped o ∧
        (Press.visit style o p).written = p.written ++ new ∧
        (Press.visit style o p).level = p.level ∧ (Press.visit style o p).grouped = p.grouped ∧
        textLines (text style (Press.visit style o { grouped := p.grouped }).written) =
          printed style (Press.visit style o { grouped := p.grouped }).written ++ [[]] ∧
        textLines (text style new) = (Press.visit style o { grouped := p.grouped }).written.map
          (indented style p.level) ++ [[]])) ∧
    ∀ (o : Options) (trees : List Forest), (∀ t ∈ trees, t.WellFormed) →
      (∀ t ∈ trees, t.ConflictFree) → ∃ out O, mergeAll o trees = .ok out ∧
        out.forest.outline Forest.root = .ok O ∧
        ∀ style, ∃ reports, Report.ofOutput style out = .ok reports ∧
          out.forest.render style = .ok (text style (treeLines style O)) ∧
          List.Forall₂ (fun c r => ∀ l, out.forest.kind c.right = .ok (.plain (.leaf l)) →
            ShownInRegion style O c r.right) out.conflicts reports := by
  refine ⟨fun f hf h hh => ?_, fun o trees ht hfree => ?_⟩
  · obtain ⟨O, ho, -, -, hs⟩ := hf.exists_outline (Array.getElem?_eq_getElem hh)
    refine ⟨O, ho, fun hu style p => ?_⟩
    have hprinted (level : Nat) : textLines (text style (lines style level p.grouped O)) =
        printed style (lines style level p.grouped O) ++ [[]] :=
      textLines_text (unbroken_lines hu level p.grouped).1
    rw [(Press.visit_eq O p).1, (Press.visit_eq O { grouped := p.grouped }).1]
    refine ⟨lines style p.level p.grouped O, rfl, rfl, rfl, rfl, hprinted 0, ?_⟩
    rw [hprinted, printed_lines hs]
    rfl
  · obtain ⟨out, hm, hw, hsize⟩ := mergeAll_wellFormed o ht
    obtain ⟨O, hO⟩ := hw.exists_shows
    refine ⟨out, O, hm, hO.outline, fun style => ?_⟩
    obtain ⟨reports, hr⟩ := exists_reports style hw hsize
    refine ⟨reports, hr, by rw [Forest.render, hO.outline]; rfl, ?_⟩
    have hreports := forall₂_of_mapM hr
    by_cases hk : o.keep = .both
    · obtain ⟨os, Q, out', O', h⟩ := exists_outcome (by rw [hk]; decide) hfree
      cases hm.symm.trans h.merged
      cases hO.outline.symm.trans h.outline
      refine ((List.forall₂_and_left _ _).mpr ⟨fun _ hc => hc, hreports⟩).imp ?_
      intro c r hcr l hl
      exact h.shownInRegion hO.sound hcr.1 hl hcr.2
    · rw [mergeAll_conflicts hk hm] at hreports ⊢
      cases hreports
      exact .nil

theorem printed_at_every_level_contested :
    contested.WellFormed ∧ (∃ o, contested.outline 1 = .ok o ∧ (∀ t ∈ o.texts, Unbroken t) ∧
      textLines (text {} (Press.visit {} o { level := 2 }).written) =
        (Press.visit {} o {}).written.map (indented {} 2) ++ [[]]) ∧
    ∃ out O c r, mergeAll {} [.ofConstant "A" "1", .ofConstant "A" "2"] = .ok out ∧
      out.conflicts = [c] ∧ Report.ofOutput {} out = .ok [r] ∧ ShownInRegion {} O c r.right := by
  have hf : contested.WellFormed := by decide
  obtain ⟨hnodes, hmerges⟩ := printed_at_every_level
  obtain ⟨o, ho, hprinted⟩ := hnodes contested hf 1 (by decide)
  refine ⟨hf, ⟨o, ho, ?_⟩, ?_⟩
  · have hu : ∀ t ∈ o.texts, Unbroken t := by
      cases ho
      decide
    obtain ⟨new, -, hnew, -, -, -, hlines⟩ := hprinted hu {} { level := 2 }
    rw [List.nil_append] at hnew
    exact ⟨hu, hnew ▸ hlines⟩
  · obtain ⟨out, O, hm, -, hreports⟩ := hmerges {} [.ofConstant "A" "1", .ofConstant "A" "2"]
      (by decide) (by simp [Forest.conflictFree_ofConstant])
    obtain ⟨reports, hr, -, hshown⟩ := hreports {}
    cases hm
    cases hr
    cases hshown with
    | cons h _ => exact ⟨_, O, _, _, rfl, rfl, rfl, h (.constant "A" "2") rfl⟩

end Merge

end Reconcile
