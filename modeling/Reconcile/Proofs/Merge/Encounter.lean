import Reconcile.Proofs.Merge.Holder
import Reconcile.Proofs.Merge.Lasting
import Reconcile.Proofs.Merge.Run

namespace Reconcile

namespace Merge

open Outline (plug)

/-- The declaration that an event brings. -/
def Event.declaration? : Event → Option (Content × Notes)
  | .enter s n => some (.scope s, n)
  | .declare l n => some (.leaf l, n)
  | _ => none

theorem Event.isDeclaration {e : Event} {c : Content} {n : Notes} (he : e.declaration? = some (c, n)) :
    c.isDeclaration = true := by
  cases e with
  | enter | declare => cases he; rfl
  | leave | remark | carry => cases he

def arrivals (es : List (String × Event)) : List Entry :=
  es.filterMap fun x => x.2.declaration?.map fun d => ⟨Forest.root, x.1, d.1, d.2⟩

end Merge

namespace Outline

open Merge (arrivals)

theorem arrivals_script {o : Outline} (hs : o.sound = true) (hc : o.conflictFree = true)
    (outer : String) :
    arrivals (o.script outer) = (o.census outer).map fun e => { e with handle := Forest.root } := by
  induction o generalizing outer with
  | conflict => cases hc
  | node h c n cs ih =>
      rw [sound_node] at hs
      rw [conflictFree_node] at hc
      have hcs (outer : String) : arrivals (cs.flatMap (script outer)) =
          (cs.flatMap (census outer)).map fun e => { e with handle := Forest.root } := by
        rw [arrivals, List.filterMap_flatMap, List.map_flatMap]
        exact List.flatMap_congr fun x hx => ih x hx (hs.2 x hx) (hc x hx) outer
      cases c with
      | leaf l =>
          cases hs.1.resolve_left (by simp [Content.isContainer])
          simp [script, arrivals, Merge.Event.declaration?, ownEntry, Content.isDeclaration]
      | scope s =>
          rw [census_node, List.map_append, ← hcs]
          simp [script, arrivals, Merge.Event.declaration?, ownEntry, Content.isDeclaration,
            Content.qualify, Content.scope?]
      | tree | visibilityGroup | group =>
          rw [census_node, List.map_append, ← hcs]
          simp [script, arrivals, Merge.Event.declaration?, ownEntry, Content.isDeclaration,
            Content.qualify, Content.scope?]

end Outline

namespace Merge

open Outline (plug)

/-- What an arrival meets, and under which key. -/
def Draft.meets? (P : Draft) (c : Content) : Option (String × Handle) :=
  match c with
  | .scope s => (P.scopeUnder? (s.qualify P.name)).map (s.qualify P.name, ·)
  | _ => P.previous? (c.keys P.name)

variable {o : Options} {P Q : Draft} {e : Event} {c : Content} {n : Notes} {key : String}
  {path : List Frame} {x y : Outline} {labels : Labels} {j : Nat}

theorem Draft.meets?_scope {s : Scope} {h : Handle} (hu : P.scopeUnder? (s.qualify P.name) = some h) :
    P.meets? (.scope s) = some (s.qualify P.name, h) := by
  simp [meets?, hu]

theorem Draft.mem_census_of_plug (path : List Frame) {h : Handle} {m : Notes} {cs : List Outline}
    (hp : P.outline = plug path (.node h c m cs)) (hc : c.isDeclaration = true) :
    ⟨h, pathName "" path, c, m⟩ ∈ P.census := by
  rw [census, hp]
  exact Outline.mem_census_plug "" path hc

/-- An arrival is recorded if it meets a declaration that it does not agree with. -/
theorem Step.met (hk : o.keep = .both) (hv : P.Valid) (hs : Step o P e Q)
    (hd : e.declaration? = some (c, n)) :
    P.meets? c = none ∧ Q.conflicts = P.conflicts ∨
    ∃ key d, d ∈ P.census ∧ P.meets? c = some (key, d.handle) ∧
      (d.content.compatible c = true ∧ Q.conflicts = P.conflicts ∨
      d.content.compatible c = false ∧ Q.conflicts = P.record o key d.handle P.next ∧
        .node P.next c n [] ∈ Q.outline.rivals ++ Q.loose) := by
  cases hs with
  | left | remarked => cases hd
  | newScope s n path c m cs hu hp hc hn =>
      cases hd
      exact Or.inl ⟨by simp [Draft.meets?, hu], rfl⟩
  | newLeaf l n path c m cs hu hp hc hn =>
      cases hd
      exact Or.inl ⟨hu, rfl⟩
  | keptHeader s n path h t m cs hu hp hne hk' => cases hk.symm.trans hk'
  | keptLeaf l n path key h c m cs hu hp hl hk' => cases hk.symm.trans hk'
  | knownScope s n path h m cs hu hp =>
      cases hd
      refine Or.inr ⟨_, _, Draft.mem_census_of_plug path hp rfl, Draft.meets?_scope hu, Or.inl ⟨?_, rfl⟩⟩
      simp [Content.compatible]
  | contestedHeader s n path q c nq before after h t m cs hu hp hne =>
      cases hd
      refine Or.inr ⟨_, _, Draft.mem_census_of_plug (.node q c nq before after :: path) hp rfl,
        Draft.meets?_scope hu, Or.inr ⟨?_, rfl, ?_⟩⟩
      · simp [Content.compatible, hne]
      · refine List.mem_append_left _ (Outline.rivals_plug path ?_)
        simp [ConflictForm.rivals]
  | repeatedHeader s n path q old nq r h t m cs hu hp hne =>
      cases hd
      refine Or.inr ⟨_, _, Draft.mem_census_of_plug (.left q .headers old nq r :: path) hp rfl,
        Draft.meets?_scope hu, Or.inr ⟨?_, rfl, ?_⟩⟩
      · simp [Content.compatible, hne]
      · exact List.mem_append_right _ (by simp)
  | unitedLeaf l n path key h l' m cs hu hp hl =>
      cases hd
      exact Or.inr ⟨_, _, Draft.mem_census_of_plug path hp rfl, hu, Or.inl ⟨hl, rfl⟩⟩
  | joinedLeaf l n path key q old nq b nb before after h c m cs r nr rs hu hp hl =>
      cases hd
      have hdecl := hv.mem_keys (.node b .tree nb before after ::
        .left q .declarations old nq (.node r .tree nr rs) :: path) hu hp
      refine Or.inr ⟨_, _, Draft.mem_census_of_plug (.node b .tree nb before after ::
        .left q .declarations old nq (.node r .tree nr rs) :: path) hp hdecl.1, hu, Or.inr ⟨hl, rfl, ?_⟩⟩
      refine List.mem_append_left _ (Outline.rivals_plug path ?_)
      simp [ConflictForm.rivals, Outline.children]
  | opposedLeaf l n path key q d nq before after h c m cs hu hp hside hl =>
      cases hd
      have hdecl := hv.mem_keys (.node q d nq before after :: path) hu hp
      refine Or.inr ⟨_, _, Draft.mem_census_of_plug (.node q d nq before after :: path) hp
        hdecl.1, hu, Or.inr ⟨hl, rfl, ?_⟩⟩
      refine List.mem_append_left _ (Outline.rivals_plug path ?_)
      simp [ConflictForm.rivals, Outline.children]
  | opposedHeaders l n path key q d nq before after k old nk h c m cs r hu hp hl =>
      cases hd
      have hdecl := hv.mem_keys (.left k .headers old nk r :: .node q d nq before after :: path) hu hp
      refine Or.inr ⟨_, _, Draft.mem_census_of_plug
        (.left k .headers old nk r :: .node q d nq before after :: path) hp hdecl.1, hu,
        Or.inr ⟨hl, rfl, ?_⟩⟩
      refine List.mem_append_left _ (Outline.rivals_plug path ?_)
      simp [ConflictForm.rivals, Outline.children]

theorem Step.silent (hs : Step o P e Q) (hd : e.declaration? = none) : Q.conflicts = P.conflicts := by
  cases hs with
  | left | remarked => rfl
  | newScope | knownScope | keptHeader | contestedHeader | repeatedHeader | newLeaf | unitedLeaf
  | keptLeaf | joinedLeaf | opposedLeaf | opposedHeaders => cases hd

theorem Draft.recent_insertAll_of_not_mem {i : Index} {keys : List String} {h : Handle}
    (hk : key ∉ keys) : (i.insertAll keys h).recent key = i.recent key := by
  rw [recent_insertAll, List.count_eq_zero_of_not_mem hk]
  rfl

theorem Runs.grows {es : List (String × Event)} (hr : Runs o P es Q) (hv : P.Valid) :
    ∀ d ∈ P.census, ∃ d' ∈ Q.census, d.Grows d' := by
  intro d hd
  refine hr.invariant (I := fun R => ∃ d' ∈ R.census, d.Grows d') hv ?_ ⟨d, hd, .refl d⟩
  rintro P Q e - hs ⟨d', hd', hg⟩
  obtain ⟨d'', hd'', hg'⟩ := hs.lasts.census d' hd'
  exact ⟨d'', hd'', hg.trans hg'⟩

theorem Step.recent_eq (hs : Step o P e Q)
    (hk : ∀ c n, e.declaration? = some (c, n) → key ∉ c.keys P.name) :
    Q.index.recent key = P.index.recent key := by
  cases hs with
  | newScope s n => exact Draft.recent_insertAll_of_not_mem (hk _ _ rfl)
  | newLeaf l n => exact Draft.recent_insertAll_of_not_mem (hk _ _ rfl)
  | knownScope | keptHeader | contestedHeader | repeatedHeader | left | unitedLeaf | keptLeaf
  | joinedLeaf | opposedLeaf | opposedHeaders | remarked => rfl

theorem Edit.contents (h : Edit labels P.next false j x y) (hx : ∀ l, x.content? ≠ some (.leaf l))
    (outer : String) : List.Forall₂ (fun d d' => d.Grows d' ∧ d'.content = d.content)
      (x.census outer) (y.census outer) := by
  have same (ds : List Entry) : List.Forall₂ (fun d d' => d.Grows d' ∧ d'.content = d.content) ds ds :=
    List.forall₂_same.mpr fun d _ => ⟨.refl d, rfl⟩
  cases h with
  | unite h l => exact absurd rfl (hx l)
  | annotate h c n cs comments =>
      rw [Outline.census_node, Outline.census_node]
      refine List.rel_append ?_ (same _)
      unfold Outline.ownEntry
      split
      · exact .cons ⟨⟨rfl, rfl, Or.inl rfl, subset_union _ _, rfl⟩, rfl⟩ .nil
      · exact .nil
  | contest | join | oppose =>
      simp only [Outline.census_node, Outline.census_conflict, List.flatMap_append, List.flatMap_cons,
        List.flatMap_nil, List.append_nil]
      exact same _

theorem Draft.contents_edit (labels : Labels) (hp : P.outline = plug path x) (he : Edit labels P.next false j x y)
    (hx : ∀ l, x.content? ≠ some (.leaf l)) :
    ∀ d ∈ P.census, ∃ d' ∈ (plug path y).census "", d.Grows d' ∧ d'.content = d.content := by
  obtain ⟨pre, post, h⟩ := Outline.census_plug "" path
  have same (ds : List Entry) : List.Forall₂ (fun d d' => d.Grows d' ∧ d'.content = d.content) ds ds :=
    List.forall₂_same.mpr fun d _ => ⟨.refl d, rfl⟩
  rw [census, hp, h, h]
  exact exists_of_forall₂ (List.rel_append (List.rel_append (same _) (he.contents hx _)) (same _))

/-- Only a leaf that agrees with the arrival that it meets can change its content, by absorbing it. -/
theorem Step.content_cases (hv : P.Valid) (hs : Step o P e Q) {d : Entry} (hd : d ∈ P.census) :
    ∃ d' ∈ Q.census, d.Grows d' ∧ (d'.content = d.content ∨ ∃ c n key,
      e.declaration? = some (c, n) ∧ P.meets? c = some (key, d.handle) ∧
        d.content.compatible c = true ∧ d'.content = d.content.absorb c) := by
  have kept {Q : Draft} (h : ∃ d' ∈ Q.census, d.Grows d' ∧ d'.content = d.content) :
      ∃ d' ∈ Q.census, d.Grows d' ∧ (d'.content = d.content ∨ ∃ c n key,
        e.declaration? = some (c, n) ∧ P.meets? c = some (key, d.handle) ∧
          d.content.compatible c = true ∧ d'.content = d.content.absorb c) := by
    obtain ⟨d', hd', hg, hc⟩ := h
    exact ⟨d', hd', hg, Or.inl hc⟩
  have no_leaf {h : Handle} {c : Content} {m : Notes} {cs : List Outline}
      (hc : c.isContainer = true) : ∀ l, (Outline.node h c m cs).content? ≠ some (.leaf l) := by
    rintro l heq
    cases heq
    cases hc
  cases hs with
  | newScope s n path c m cs hu hp hc hn =>
      exact kept ⟨d, (Draft.census_added hp rfl hn).mem_iff.mpr (List.mem_cons_of_mem _ hd), .refl d, rfl⟩
  | newLeaf l n path c m cs hu hp hc hn =>
      exact kept ⟨d, (Draft.census_added hp rfl hn).mem_iff.mpr (List.mem_cons_of_mem _ hd), .refl d, rfl⟩
  | keptHeader | left | keptLeaf | repeatedHeader => exact kept ⟨d, hd, .refl d, rfl⟩
  | knownScope s n path h m cs hu hp =>
      exact kept (Draft.contents_edit o.labels hp (.annotate _ _ _ _ _) nofun d hd)
  | contestedHeader s n path q c nq before after h t m cs hu hp =>
      exact kept (Draft.contents_edit o.labels hp (.contest _ _ _ _ _ _ _ _ _ _ _)
        (no_leaf (hv.standing.container hp)) d hd)
  | joinedLeaf l n path key q old nq b nb before after h c m cs r nr rs hu hp hl =>
      exact kept (Draft.contents_edit o.labels hp (.join _ _ _ _ _ _ _ _ _) nofun d hd)
  | opposedLeaf l n path key q c nq before after h c' m cs hu hp hside hl =>
      exact kept (Draft.contents_edit o.labels hp (.oppose _ _ _ _ _ _ _ _)
        (no_leaf (hv.standing.container hp)) d hd)
  | opposedHeaders l n path key q c nq before after k old nk h c' m cs r hu hp hl =>
      exact kept (Draft.contents_edit o.labels hp (.oppose _ _ _ _ _ _ _ _)
        (no_leaf (hv.standing.container hp)) d hd)
  | remarked comments path c m cs hp hn =>
      have hc : c.isContainer = true := by
        rcases hv.standing.current_cases hp with ⟨s, rfl⟩ | ⟨rfl, -⟩ <;> rfl
      exact kept (Draft.contents_edit o.labels hp (.annotate _ _ _ _ _) (no_leaf hc) d hd)
  | unitedLeaf l n path key h l' m cs hu hp hl =>
      obtain ⟨pre, post, hcensus⟩ := Outline.census_plug "" path
      rw [Draft.census, hp, hcensus] at hd
      rw [Draft.census, hcensus]
      simp only [Outline.census_node, Outline.ownEntry, Content.isDeclaration, if_true,
        List.mem_append, List.mem_singleton] at hd ⊢
      rcases hd with (hd | rfl | hd) | hd
      · exact ⟨d, Or.inl (Or.inl hd), .refl d, Or.inl rfl⟩
      · refine ⟨_, Or.inl (Or.inr (Or.inl rfl)), ⟨rfl, rfl, ?_, subset_union _ _, rfl⟩, Or.inr ?_⟩
        · exact Or.inr ⟨l', _, rfl, rfl, l'.within_absorb l⟩
        · exact ⟨_, _, key, rfl, hu, hl, rfl⟩
      · exact ⟨d, Or.inl (Or.inr (Or.inr hd)), .refl d, Or.inl rfl⟩
      · exact ⟨d, Or.inr hd, .refl d, Or.inl rfl⟩

end Merge

end Reconcile
