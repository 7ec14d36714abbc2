import Reconcile.Proofs.Merge.Outcome
import Reconcile.Proofs.Merge.Retention

namespace Reconcile

namespace Outline

variable {o x : Outline} {path : List Frame}

theorem conflictFree_of_plug (hc : (plug path o).conflictFree = true) : o.conflictFree = true := by
  induction path generalizing o with
  | nil => exact hc
  | cons fr path ih =>
      have hfill := ih hc
      cases fr with
      | node => exact (conflictFree_node ..).mp hfill o (by simp)
      | left => cases hfill

theorem script_plug (outer : String) (hs : (plug path x).sound = true)
    (hc : (plug path x).conflictFree = true) :
    x.script (pathName outer path) ⊆ (plug path x).script outer := by
  induction path generalizing x with
  | nil => exact List.Subset.refl _
  | cons fr path ih =>
      refine List.Subset.trans ?_ (ih hs hc)
      cases fr with
      | left => cases @conflictFree_of_plug _ path hc
      | node h c n before after =>
          have ha : c.isContainer = true := @admits_of_sound path x (.node h c n before after) hs
          intro e he
          cases c with
          | leaf => cases ha
          | scope s =>
              simp only [Frame.fill, script, scriptOfAll_eq, List.mem_append, List.mem_cons,
                List.mem_flatMap]
              exact Or.inl (Or.inr ⟨x, by simp, he⟩)
          | tree | visibilityGroup | group =>
              simp only [Frame.fill, script, scriptOfAll_eq, List.mem_cons, List.mem_flatMap]
              exact Or.inr ⟨x, by simp, he⟩

theorem unkeyed_script (outer : String) (hs : o.sound = true) (hc : o.conflictFree = true) :
    (o.script outer).flatMap (·.2.unkeyed) = o.unkeyed := by
  induction o generalizing outer with
  | conflict => cases hc
  | node h c n cs ih =>
      rw [sound_node] at hs
      rw [conflictFree_node] at hc
      have hcs (outer : String) : (cs.flatMap (script outer)).flatMap (·.2.unkeyed) =
          cs.flatMap unkeyed := by
        rw [List.flatMap_assoc]
        exact List.flatMap_congr fun x hx => ih x hx outer (hs.2 x hx) (hc x hx)
      have hleaves : (cs.flatMap leaves).filter (fun x => (x.1.keys "").isEmpty) =
          cs.flatMap unkeyed := List.filter_flatMap ..
      cases c with
      | leaf l =>
          cases hs.1.resolve_left (by simp [Content.isContainer])
          simp [script, Merge.Event.unkeyed, unkeyed, ownLeaf, List.filter_singleton]
      | scope | tree | visibilityGroup | group =>
          rw [unkeyed, leaves_node, List.filter_append, hleaves]
          simp only [script, scriptOfAll_eq, List.cons_append, List.flatMap_cons, List.flatMap_append,
            List.flatMap_nil, hcs]
          simp [ownLeaf, Merge.Event.unkeyed]

end Outline

namespace Forest

variable {f : Forest} {o : Outline} {path : List Frame}

theorem parentScope_of_holds (ho : (o.plug path).Holds f.look none)
    (hd : (o.plug path).handles.Nodup) :
    f.parentScope o.handle = .ok none ∧ pathName "" path = "" ∨
    ∃ p, f.parentScope o.handle = .ok (some p) ∧ f.qualifiedName p = .ok (pathName "" path) ∧
      pathName "" path ≠ "" := by
  simp only [parentScope, enclosingScopes_of_holds ho hd, bind, Except.bind, pure, Except.pure]
  induction path generalizing o with
  | nil => exact Or.inl ⟨rfl, rfl⟩
  | cons fr path ih =>
      cases hs : fr.scope? with
      | none =>
          have hq : pathName "" (fr :: path) = pathName "" path := by
            cases fr with
            | node h c n before after =>
                have hc : c.scope? = none := hs
                simp [pathName, Frame.qualify, Content.qualify, hc]
            | left => rfl
          rw [List.filterMap_cons, hs, hq]
          exact ih (o := fr.fill o) ho hd
      | some s =>
          right
          cases fr with
          | left => cases hs
          | node h c n before after =>
              have hc : c.scope? = some s := hs
              have hq : pathName "" (.node h c n before after :: path) = s.qualify (pathName "" path) := by
                simp [pathName, Frame.qualify, Content.qualify, hc]
              refine ⟨h, by simp [hs, Frame.handle], ?_, ?_⟩
              · exact @qualifiedName_of_holds f path h c n (before ++ o :: after) ho hd
              · rw [hq]
                exact s.qualify_ne_empty _

end Forest

namespace Merge

/-- The scope `s` counts for identity under a name and carries the comments. -/
def Output.HasScope (out : Output) (O : Outline) (name : String) (s : Scope)
    (comments : List String) : Prop :=
  ∃ k n cs, .node k (.scope s) n cs ∈ O.subtrees ∧ k ∈ O.declared ∧
    out.forest.qualifiedName k = .ok name ∧ comments ⊆ n.comments

/-- What an output with the outline `O` owes to a node of the tree `t`. -/
def Output.Keeps (out : Output) (O : Outline) (t : Forest) : Outline → Prop
  | .node h (.leaf l) n _ => ∃ keys, t.keys h = .ok keys ∧
      (keys = [] ∧ (l, n) ∈ O.leaves ∨
      (∃ k l' n' cs keys', .node k (.leaf l') n' cs ∈ O.subtrees ∧ out.forest.keys k = .ok keys' ∧
        (∃ key ∈ keys, key ∈ keys') ∧ l.Within l' ∧ n.comments ⊆ n'.comments) ∨
      ∃ r ∈ out.conflicts, r.key ∈ keys ∧ .node r.right (.leaf l) n [] ∈ O.subtrees)
  | .node h (.scope s) n _ => ∃ name, t.qualifiedName h = .ok name ∧
      (out.HasScope O name s n.comments ∨ ∃ r ∈ out.conflicts, r.key = name ∧
        ∃ m, out.forest.get r.right = .ok m ∧ m.kind = .plain (.scope s) ∧ m.notes = n)
  | .node h _ n _ =>
      t.parentScope h = .ok none ∧ n.comments ⊆ O.notes.comments ∨
      ∃ p name s, t.parentScope h = .ok (some p) ∧ t.qualifiedName p = .ok name ∧
        out.HasScope O name s n.comments
  | .conflict .. => True

variable {o : Options} {trees : List Forest} {os : List Outline} {Q : Draft} {out : Output}
  {O x : Outline}

namespace Outcome

variable (h : Outcome o trees os Q out O)
include h

theorem placed {e : Entry} (he : e ∈ Q.census) : ∃ cs,
    .node e.handle e.content e.notes cs ∈ O.subtrees ∧ e.handle ∈ O.declared ∧
      out.forest.keys e.handle = .ok e.keys ∧
      out.forest.qualifiedName e.handle = .ok (e.content.qualify e.outer) := by
  have he' : e ∈ O.census "" := by
    rw [h.coalesces.census]
    exact he
  obtain ⟨path, cs, hp, hname, -⟩ := Outline.exists_path_of_mem_census he'
  have ho := h.holds
  have hd := h.nodup
  refine ⟨cs, ?_, List.mem_map_of_mem he', ?_, ?_⟩
  · rw [hp]
    exact Outline.subtrees_plug path (Outline.mem_subtrees_self _)
  · rw [hp] at ho hd
    rw [Forest.keys_of_holds ho hd, hname]
    rfl
  · rw [hp] at ho hd
    rw [Forest.qualifiedName_of_holds ho hd, hname]

theorem hasScope {name : String} {s : Scope} {comments : List String}
    (hr : Q.Remarks name s comments) : out.HasScope O name s comments := by
  obtain ⟨e, he, hc, hq, hn⟩ := hr
  obtain ⟨cs, hm, hd, -, hname⟩ := h.placed he
  rw [hc] at hm hname
  exact ⟨e.handle, e.notes, cs, hm, hd, hname.trans (congrArg _ hq), hn⟩

theorem opposed (hx : x ∈ Q.outline.rivals) : x ∈ O.subtrees :=
  O.rivals_subset (h.coalesces.rivals.mem_iff.mpr hx)

theorem found {k : Handle} {c : Content} {n : Notes} {cs : List Outline}
    (hx : .node k c n cs ∈ Q.outline.rivals ++ Q.loose) :
    ∃ m, out.forest.get k = .ok m ∧ m.kind = .plain c ∧ m.notes = n := by
  obtain ⟨p, hp⟩ : ∃ p, (Outline.node k c n cs).Holds out.forest.look p := by
    rcases List.mem_append.mp hx with hx | hx
    · exact h.holds.of_mem_subtrees (h.opposed hx)
    · exact ⟨none, h.loose _ hx⟩
  exact ⟨_, Forest.get_of_look ((Outline.holds_node ..).mp hp).1, rfl, rfl⟩

theorem unkeyed (hs : ∀ T ∈ os, T.sound = true) : O.unkeyed.Perm (os.flatMap Outline.unkeyed) := by
  have hrun := h.runs.unkeyed Draft.valid_empty
  have hscript : (os.flatMap (Outline.script "")).flatMap (·.2.unkeyed) = os.flatMap Outline.unkeyed := by
    rw [List.flatMap_assoc]
    exact List.flatMap_congr fun T hT => Outline.unkeyed_script "" (hs T hT) (h.free T hT)
  rw [hscript] at hrun
  exact (h.coalesces.leaves.filter _).trans hrun

variable (hk : o.keep = .both) {n : Notes}
include hk

theorem keepsLeaf {name : String} {l : Leaf} (hm : (name, .declare l n) ∈ os.flatMap (Outline.script ""))
    (hkeys : l.keys name ≠ []) : Q.KeepsLeaf name l n :=
  h.runs.reaches Draft.valid_empty hm
    (fun hv hname hs => hname ▸ hs.keepsLeaf hk hv (hname ▸ hkeys)) fun _ hs => hs.lasts.keepsLeaf

theorem keepsScope {name : String} {s : Scope} (hm : (name, .enter s n) ∈ os.flatMap (Outline.script "")) :
    Q.KeepsScope (s.qualify name) s n :=
  h.runs.reaches Draft.valid_empty hm (fun hv hname hs => hname ▸ hs.keepsScope hk hv)
    fun _ hs => hs.lasts.keepsScope

omit hk in
theorem keepsComments {name : String} {comments : List String}
    (hm : (name, .remark comments) ∈ os.flatMap (Outline.script "")) : Q.KeepsComments name comments :=
  h.runs.reaches Draft.valid_empty hm (fun hv hname hs => hname ▸ hs.keepsComments hv)
    fun _ hs => hs.lasts.keepsComments

theorem keeps {t : Forest} {T : Outline} (hT : T ∈ os) (ho : T.Holds t.look none)
    (hd : T.handles.Nodup) (hs : ∀ T ∈ os, T.sound = true) (hx : x ∈ T.subtrees) : out.Keeps O t x := by
  have hc := h.free T hT
  obtain ⟨path, rfl⟩ := Outline.exists_path_of_mem_subtrees hc hx
  have hscript {e : Event} (he : (pathName "" path, e) ∈ x.script (pathName "" path)) :
      (pathName "" path, e) ∈ os.flatMap (Outline.script "") :=
    List.mem_flatMap.mpr ⟨_, hT, Outline.script_plug "" (hs _ hT) hc he⟩
  cases x with
  | conflict => trivial
  | node k c n cs =>
      cases c with
      | leaf l =>
          refine ⟨_, Forest.keys_of_holds ho hd, ?_⟩
          by_cases hkeys : l.keys (pathName "" path) = []
          · refine Or.inl ⟨hkeys, ?_⟩
            have hm : (l, n) ∈ (Outline.plug path (.node k (.leaf l) n cs)).leaves :=
              List.mem_filterMap.mpr ⟨_, hx, rfl⟩
            have hu : (l, n) ∈ os.flatMap Outline.unkeyed := by
              refine List.mem_flatMap.mpr ⟨_, hT, List.mem_filter.mpr ⟨hm, ?_⟩⟩
              rw [List.isEmpty_iff, l.keys_eq_nil_iff "" (pathName "" path), hkeys]
            exact (List.mem_filter.mp ((h.unkeyed hs).mem_iff.mpr hu)).1
          · right
            have he : (pathName "" path, .declare l n) ∈ os.flatMap (Outline.script "") :=
              hscript (by simp [Outline.script])
            rcases h.keepsLeaf hk he hkeys with
              ⟨e, he, l', hl', ⟨key, hkey, hkey'⟩, hw, hn⟩ | ⟨r, hr, hkey, hm⟩
            · obtain ⟨cs', hm, -, hkeys', -⟩ := h.placed he
              rw [hl'] at hm
              exact Or.inl ⟨e.handle, l', e.notes, cs', e.keys, hm, hkeys', ⟨key, hkey, hkey'⟩, hw, hn⟩
            · rw [← h.conflicts] at hr
              exact Or.inr ⟨r, hr, hkey, h.opposed hm⟩
      | scope s =>
          refine ⟨_, Forest.qualifiedName_of_holds ho hd, ?_⟩
          have he : (pathName "" path, .enter s n) ∈ os.flatMap (Outline.script "") :=
            hscript (by simp [Outline.script])
          rcases h.keepsScope hk he with hr | ⟨r, hr, hkey, hm⟩
          · exact Or.inl (h.hasScope hr)
          · rw [← h.conflicts] at hr
            exact Or.inr ⟨r, hr, hkey, h.found hm⟩
      | tree | visibilityGroup | group =>
          have hkept := h.keepsComments (hscript (e := .remark n.comments) (by simp [Outline.script]))
          unfold Draft.KeepsComments at hkept
          rcases Forest.parentScope_of_holds ho hd with ⟨hp, hname⟩ | ⟨p, hp, hq, hname⟩
          · rw [if_pos hname] at hkept
            rw [← h.coalesces.notes] at hkept
            exact Or.inl ⟨hp, hkept⟩
          · rw [if_neg hname] at hkept
            obtain ⟨s, hr⟩ := hkept
            exact Or.inr ⟨p, _, s, hp, hq, h.hasScope hr⟩

end Outcome

/-- Nothing is lost in a merge that keeps both versions. -/
theorem nothing_lost (labels : Labels) (trees : List Forest) (hw : ∀ t ∈ trees, t.WellFormed)
    (hc : ∀ t ∈ trees, t.ConflictFree) : ∃ os out O, readings trees = .ok os ∧
      mergeAll ⟨labels, .both⟩ trees = .ok out ∧ out.forest.outline Forest.root = .ok O ∧
      O.unkeyed.Perm (os.flatMap Outline.unkeyed) ∧
      ∀ t ∈ trees, ∀ T, t.outline Forest.root = .ok T → ∀ x ∈ T.subtrees, out.Keeps O t x := by
  obtain ⟨os, Q, out, O, h⟩ := @exists_outcome ⟨labels, .both⟩ trees (by simp) hc
  have held {t : Forest} {T : Outline} (ht : t ∈ trees) (hT : t.outline Forest.root = .ok T) :
      T.Holds t.look none ∧ T.handles.Nodup ∧ T.sound = true := by
    obtain ⟨T', ho, hd, hs, hroot, -⟩ := (hw t ht).exists_holds
    have hT' := Forest.outline_of_holds ho hd
    rw [hroot, hT] at hT'
    cases hT'
    exact ⟨ho, hd, hs⟩
  have hs : ∀ T ∈ os, T.sound = true := by
    intro T hm
    obtain ⟨t, ht, hT⟩ := (mem_readings h.readings).mp hm
    exact (held ht hT).2.2
  refine ⟨os, out, O, h.readings, h.merged, h.outline, h.unkeyed hs, ?_⟩
  intro t ht T hT x hx
  obtain ⟨ho, hd, -⟩ := held ht hT
  exact h.keeps rfl ((mem_readings h.readings).mpr ⟨t, ht, hT⟩) ho hd hs hx

theorem nothing_lost_constants : ∃ os out O,
    readings [.ofConstant "A" "1", .ofConstant "A" "2"] = .ok os ∧
      mergeAll {} [.ofConstant "A" "1", .ofConstant "A" "2"] = .ok out ∧
      out.forest.outline Forest.root = .ok O ∧ O.unkeyed.Perm (os.flatMap Outline.unkeyed) ∧
      ∀ t ∈ [.ofConstant "A" "1", .ofConstant "A" "2"], ∀ T, t.outline Forest.root = .ok T →
        ∀ x ∈ T.subtrees, out.Keeps O t x :=
  nothing_lost ⟨"left", "right"⟩ [.ofConstant "A" "1", .ofConstant "A" "2"] (by decide)
    (by simp [Forest.conflictFree_ofConstant])

end Merge

end Reconcile
