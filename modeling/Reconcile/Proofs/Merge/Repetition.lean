import Reconcile.Proofs.Merge.Conservation
import Reconcile.Proofs.Merge.Copying

namespace Reconcile

namespace Outline

variable {o : Outline}

/-- All nodes are declarations with an identity, in a scope of the given name. -/
structure Keyed (outer : String) (o : Outline) : Prop where
  declarations : ∀ x ∈ o.subtrees, ∃ c, x.content? = some c ∧ c.isDeclaration = true
  keys : ∀ e ∈ o.census outer, e.keys ≠ []

theorem Keyed.child {outer : String} {h : Handle} {c : Content} {n : Notes} {cs : List Outline}
    (hk : (node h c n cs).Keyed outer) {x : Outline} (hx : x ∈ cs) : x.Keyed (c.qualify outer) where
  declarations := fun y hy => hk.declarations y (by
    rw [subtrees_node]
    exact List.mem_cons_of_mem _ (List.mem_flatMap.mpr ⟨x, hx, hy⟩))
  keys := fun e he => hk.keys e (by
    rw [census_node]
    exact List.mem_append_right _ (List.mem_flatMap.mpr ⟨x, hx, he⟩))

theorem conflictFree_of_content (ho : ∀ x ∈ o.subtrees, x.content? ≠ none) : o.conflictFree = true := by
  induction o with
  | node h c n cs ih =>
      rw [conflictFree_node]
      intro x hx
      apply ih x hx
      intro y hy
      apply ho y
      rw [subtrees_node]
      exact List.mem_cons_of_mem _ (List.mem_flatMap.mpr ⟨x, hx, hy⟩)
  | conflict => exact absurd rfl (ho _ (mem_subtrees_self _))

theorem Keyed.conflictFree {outer : String} (hk : o.Keyed outer) : o.conflictFree = true := by
  apply conflictFree_of_content
  intro x hx
  obtain ⟨c, hc, -⟩ := hk.declarations x hx
  simp [hc]

end Outline

namespace Forest

/-- Every node that can be reached from the root has an identity key, the root itself apart. -/
def Keyed (f : Forest) : Prop :=
  ∃ o, f.outline root = .ok o ∧ ∀ h ∈ o.descendants, ∃ keys, f.keys h = .ok keys ∧ keys ≠ []

instance (f : Forest) : Decidable f.Keyed :=
  decidable_of_iff (∃ o ∈ (f.outline root).toOption, ∀ h ∈ o.descendants,
    ∃ keys ∈ (f.keys h).toOption, keys ≠ []) (by simp only [mem_toOption, Keyed])

variable {f : Forest} {o : Outline} {h : Handle}

theorem exists_keys_of_kind {k : Kind} {keys : List String} (hk : f.kind h = .ok k)
    (hkeys : f.keys h = .ok keys) : ∃ outer, keys = k.keys outer := by
  cases hn : f.enclosingName h with
  | error => simp [Forest.keys, hk, hn, bind, Except.bind] at hkeys
  | ok outer =>
      simp only [Forest.keys, hk, hn, bind, Except.bind, pure, Except.pure, Except.ok.injEq] at hkeys
      exact ⟨outer, hkeys.symm⟩

theorem exists_declaration_of_keys {x : Outline} {parent : Option Handle} {keys : List String}
    (hx : x.Holds f.look parent) (hkeys : f.keys x.handle = .ok keys) (hne : keys ≠ []) :
    ∃ c, x.content? = some c ∧ c.isDeclaration = true := by
  cases x with
  | node k c n cs =>
      obtain ⟨outer, rfl⟩ := exists_keys_of_kind (kind_of_look ((Outline.holds_node ..).mp hx).1) hkeys
      refine ⟨c, rfl, ?_⟩
      cases c with
      | scope | leaf => rfl
      | tree | visibilityGroup | group => exact absurd rfl hne
  | conflict =>
      obtain ⟨outer, rfl⟩ := exists_keys_of_kind (kind_of_look ((Outline.holds_conflict ..).mp hx).1) hkeys
      exact absurd rfl hne

theorem Shows.exists_keyed (ho : f.Shows o) (hk : f.Keyed) :
    ∃ n cs, o = .node Forest.root .tree n cs ∧ ∀ x ∈ cs, x.Keyed "" := by
  obtain ⟨o', ho', hk⟩ := hk
  cases ho.outline.symm.trans ho'
  have hroot := ho.root
  have htree := ho.tree
  cases o with
  | conflict => cases htree
  | node h c n cs =>
      cases htree
      cases hroot
      refine ⟨n, cs, rfl, fun x hx => ?_⟩
      rw [Outline.descendants, Outline.descendantsOfAll_eq] at hk
      have below {k : Handle} (hm : k ∈ x.handles) := hk k (Outline.handles_subset hx hm)
      refine ⟨fun y hy => ?_, fun e he => ?_⟩
      · obtain ⟨keys, hkeys, hne⟩ := below (Outline.handle_mem_of_subtree hy)
        obtain ⟨p, hp⟩ := (((Outline.holds_node ..).mp ho.holds).2 x hx).of_mem_subtrees hy
        exact exists_declaration_of_keys hp hkeys hne
      · obtain ⟨keys, hkeys, hne⟩ := below (Outline.handle_mem_of_census he)
        have hmem : e ∈ (Outline.node Forest.root .tree n cs).census "" := by
          rw [Outline.census_node]
          exact List.mem_append_right _ (List.mem_flatMap.mpr ⟨x, hx, he⟩)
        cases (ho.keys_of_mem hmem).symm.trans hkeys
        exact hne

end Forest

namespace Merge

open Outline (plug)

variable {o : Options} {φ : Handle → Handle} {P : Draft}

/-- The draft holds the declarations under new handles. -/
def Draft.Contains (P : Draft) (φ : Handle → Handle) (es : List Entry) : Prop :=
  ∀ e ∈ es, { e with handle := φ e.handle } ∈ P.census

theorem Step.again_scope {s : Scope} {n : Notes} {h : Handle} (hv : P.Valid)
    (ha : P.census.Pairwise Entry.Apart) (he : ⟨h, P.name, .scope s, n⟩ ∈ P.census) :
    Step o P (.enter s n) { P with entered := (h, s.qualify P.name) :: P.entered } := by
  obtain ⟨path, cs, hp, -, -⟩ := Outline.exists_path_of_mem_census he
  have hsole : P.Sole (s.qualify P.name) _ := Draft.sole_of_apart ha he (List.mem_singleton_self _)
  have hs := Step.knownScope (o := o) s n path h n cs (hsole.scopeUnder? hv rfl) hp
  rwa [Notes.addComments_eq_self (List.Subset.refl _), ← hp] at hs

theorem Step.again_leaf {l : Leaf} {n : Notes} {h : Handle} (hv : P.Valid)
    (ha : P.census.Pairwise Entry.Apart) (he : ⟨h, P.name, .leaf l, n⟩ ∈ P.census)
    (hk : l.keys P.name ≠ []) : Step o P (.declare l n) P := by
  obtain ⟨path, cs, hp, -, -⟩ := Outline.exists_path_of_mem_census he
  obtain ⟨key, rest, hkeys⟩ := List.exists_cons_of_ne_nil hk
  have hsole : P.Sole key _ := Draft.sole_of_apart ha he (by simp [Entry.keys, Content.keys, hkeys])
  have hu : P.previous? (l.keys P.name) = some (key, h) := by
    rw [hkeys]
    exact hsole.previous? hv rest
  have hs := Step.unitedLeaf (o := o) l n path key h l n cs hu hp (Leaf.compatible_self hk)
  rwa [Leaf.absorb_self, Notes.addComments_eq_self (List.Subset.refl _), ← hp] at hs

theorem Runs.again_all {os : List Outline} (hos : ∀ x ∈ os, Runs o P (x.script P.name) P) :
    Runs o P (os.flatMap (Outline.script P.name)) P := by
  induction os with
  | nil => exact .nil P
  | cons x os ih => exact (hos x (by simp)).append (ih fun y hy => hos y (by simp [hy]))

/-- What the output holds already is read again without any effect. -/
theorem Runs.again {x : Outline} (hs : x.sound = true) (hk : x.Keyed P.name) (hv : P.Valid)
    (ha : P.census.Pairwise Entry.Apart) (hx : P.Contains φ (x.census P.name)) :
    Runs o P (x.script P.name) P := by
  induction x generalizing P with
  | conflict =>
      obtain ⟨c, hc, -⟩ := hk.declarations _ (Outline.mem_subtrees_self _)
      cases hc
  | node h c n cs ih =>
      rw [Outline.sound_node] at hs
      obtain ⟨c', hc', hd⟩ := hk.declarations _ (Outline.mem_subtrees_self _)
      cases hc'
      have hown : ⟨h, P.name, c, n⟩ ∈ (Outline.node h c n cs).census P.name := by
        simp [Outline.ownEntry, hd]
      have he := hx _ hown
      cases c with
      | scope s =>
          have hstep := Step.again_scope (o := o) hv ha he
          refine .scope h hstep (.again_all fun x hm => ?_) rfl
          refine ih x hm (hs.2 x hm) (hk.child hm) (hstep.valid hv) ha fun e he => hx e ?_
          rw [Outline.census_node]
          exact List.mem_append_right _ (List.mem_flatMap.mpr ⟨x, hm, he⟩)
      | leaf l => exact .single (.again_leaf hv ha he (hk.keys _ hown))
      | tree | visibilityGroup | group => cases hd

section

variable {t : Forest} {n : Notes} {cs : List Outline}

theorem exists_first_reading (o : Options) (ht : t.Shows (.node Forest.root .tree n cs))
    (hd : t.DuplicateFree) (hk : ∀ x ∈ cs, x.Keyed "") :
    ∃ Q, Runs o .empty ((Outline.node Forest.root .tree n cs).script "") Q ∧ Q.entered = [] ∧
      Q.conflicts = [] ∧ Q.outline = .node Forest.root .tree (({} : Notes).addComments n.comments)
        (cs.map (Outline.rename (copyOf (.node Forest.root .tree n cs)))) := by
  have hflat : ∀ x ∈ cs, x.flat = [x] ∧ x.remarks = [] := fun x hx =>
    Outline.flat_of_declarations (hk x hx).declarations
  obtain ⟨Q, hQ⟩ := exists_first_copy o ht.sound
    ((Outline.conflictFree_node ..).mpr fun x hx => (hk x hx).conflictFree) ht.nodup
    (ht.pairwise_apart hd)
  refine ⟨Q, ?_, hQ.entered, hQ.conflicts, ?_⟩
  · have hr := hQ.runs
    rwa [List.flatMap_singleton] at hr
  · have hremarks : cs.flatMap Outline.remarks = [] :=
      List.flatMap_eq_nil_iff.mpr fun x hx => (hflat x hx).2
    rw [hQ.outline, List.flatMap_singleton, List.flatMap_singleton, Outline.flat_container rfl,
      Outline.remarks_container rfl, hremarks, List.flatMap_congr fun x hx => (hflat x hx).1,
      List.flatMap_singleton', List.append_nil]
    rfl

theorem Runs.repeated {Q : Draft} (hs : (Outline.node Forest.root .tree n cs).sound = true)
    (hk : ∀ x ∈ cs, x.Keyed "") (ha : (cs.flatMap (Outline.census "")).Pairwise Entry.Apart)
    (hv : Q.Valid) (hen : Q.entered = [])
    (ho : Q.outline = .node Forest.root .tree (({} : Notes).addComments n.comments)
      (cs.map (Outline.rename φ))) :
    Runs o Q ((Outline.node Forest.root .tree n cs).script "") Q := by
  have hname : Q.name = "" := by simp [Draft.name, hen]
  have hcensus : Q.census = (cs.flatMap (Outline.census "")).map
      fun e => { e with handle := φ e.handle } := by
    rw [Draft.census, ho, Outline.census_node, List.flatMap_map, List.map_flatMap]
    exact List.flatMap_congr fun x _ => Outline.census_rename "" x
  have hQ : Q.census.Pairwise Entry.Apart := by
    rw [hcensus, List.pairwise_map]
    exact ha
  have hremark : Step o Q (.remark n.comments) Q := by
    have hp : Q.outline = plug [] (.node Q.current .tree (({} : Notes).addComments n.comments)
        (cs.map (Outline.rename φ))) := by
      rw [ho, Draft.current, hen]
      rfl
    have hstep := Step.remarked (o := o) n.comments [] .tree _ _ hp (by rw [hname]; rfl)
    rwa [Notes.addComments_eq_self (subset_union_right _ _), ← hp] at hstep
  have hbody : Runs o Q (cs.flatMap (Outline.script Q.name)) Q := by
    refine .again_all fun x hx => ?_
    refine .again (φ := φ) (((Outline.sound_node ..).mp hs).2 x hx) (hname ▸ hk x hx) hv hQ ?_
    rw [hname]
    intro e he
    rw [hcensus]
    exact List.mem_map.mpr ⟨e, List.mem_flatMap.mpr ⟨x, hx, he⟩, rfl⟩
  have hr := Runs.cons hremark hbody
  rw [hname] at hr
  simpa [Outline.script] using hr

theorem Runs.replicate {Q : Draft} {T : Outline} (hr : Runs o Q (T.script "") Q) (k : Nat) :
    Runs o Q ((List.replicate k T).flatMap (Outline.script "")) Q := by
  induction k with
  | zero => exact .nil Q
  | succ k ih => exact hr.append ih

end

theorem readings_replicate {t : Forest} {T : Outline} (ht : t.outline Forest.root = .ok T) (k : Nat) :
    readings (List.replicate k t) = .ok (List.replicate k T) := by
  induction k with
  | zero => rfl
  | succ k ih =>
      rw [readings] at ih ⊢
      rw [List.replicate_succ, List.mapM_cons, ht, ih]
      rfl

/-- A merge of copies of one tree gives that tree. -/
theorem copies_merge_to_one (o : Options) (t : Forest) (hw : t.WellFormed) (hd : t.DuplicateFree)
    (hk : t.Keyed) (k : Nat) (hk' : 1 ≤ k) : ∃ out n cs O,
      mergeAll o (List.replicate k t) = .ok out ∧ out.conflicts = [] ∧
      t.outline Forest.root = .ok (.node Forest.root .tree n cs) ∧
      out.forest.outline Forest.root = .ok O ∧
      O.same (.node Forest.root .tree { n with comments := union [] n.comments } cs) = true := by
  obtain ⟨T, hT⟩ := hw.exists_shows
  obtain ⟨n, cs, rfl, hcs⟩ := hT.exists_keyed hk
  obtain ⟨Q, hr, hen, hconflicts, ho⟩ := exists_first_reading o hT hd hcs
  have hapart : (cs.flatMap (Outline.census "")).Pairwise Entry.Apart := by
    simpa [Outline.ownEntry, Content.isDeclaration, Content.qualify, Content.scope?] using
      hT.pairwise_apart hd
  have hagain : Runs o Q ((Outline.node Forest.root .tree n cs).script "") Q :=
    .repeated hT.sound hcs hapart (hr.valid Draft.valid_empty) hen ho
  obtain ⟨j, rfl⟩ : ∃ j, k = j + 1 := ⟨k - 1, by omega⟩
  have hfree : ∀ x ∈ cs, x.conflictFree = true := fun x hx => (hcs x hx).conflictFree
  have hall : ∀ x ∈ List.replicate (j + 1) (Outline.node Forest.root .tree n cs),
      x.conflictFree = true := by
    intro x hx
    rw [List.eq_of_mem_replicate hx, Outline.conflictFree_node]
    exact hfree
  obtain ⟨out, O, h⟩ := (hr.append (hagain.replicate j)).exists_outcome
    (readings_replicate hT.outline (j + 1)) hall
  have hO : O = Q.outline := h.coalesces.plain (by
    rw [ho, Outline.conflictFree_node]
    intro x hx
    obtain ⟨y, hy, rfl⟩ := List.mem_map.mp hx
    exact Outline.conflictFree_rename (hfree y hy))
  refine ⟨out, n, cs, O, h.merged, h.conflicts.trans hconflicts, hT.outline, h.outline, ?_⟩
  rw [hO, ho, Outline.same, Outline.sameAll_rename cs fun x _ => x.same_rename]
  simp [Notes.addComments]

theorem copies_merge_to_one_sample : ∃ out n cs O,
    mergeAll ⟨⟨"left", "right"⟩, .right⟩ (List.replicate 3 Forest.sampleModule) = .ok out ∧
      out.conflicts = [] ∧
      Forest.sampleModule.outline Forest.root = .ok (.node Forest.root .tree n cs) ∧
      out.forest.outline Forest.root = .ok O ∧
      O.same (.node Forest.root .tree { n with comments := union [] n.comments } cs) = true :=
  copies_merge_to_one ⟨⟨"left", "right"⟩, .right⟩ .sampleModule (by decide) (by decide) (by decide) 3
    (by decide)

end Merge

end Reconcile
