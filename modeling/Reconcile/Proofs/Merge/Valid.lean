import Mathlib.Data.List.Forall2
import Reconcile.Proofs.Declaration.Growth
import Reconcile.Proofs.Merge.Draft

namespace Reconcile

/-- An entry after some time: the same declaration, which may say more by then. -/
structure Entry.Grows (e e' : Entry) : Prop where
  handle : e'.handle = e.handle
  outer : e'.outer = e.outer
  content : e'.content = e.content ∨ ∃ l l', e.content = .leaf l ∧ e'.content = .leaf l' ∧ l.Within l'
  comments : e.notes.comments ⊆ e'.notes.comments
  location : e'.notes.location = e.notes.location

namespace Entry.Grows

variable {e e' : Entry}

theorem refl (e : Entry) : e.Grows e := ⟨rfl, rfl, Or.inl rfl, fun _ h => h, rfl⟩

theorem keys_eq (h : e.Grows e') : e'.keys = e.keys := by
  unfold Entry.keys
  rw [h.outer]
  rcases h.content with hc | ⟨l, l', hl, hl', hw⟩
  · rw [hc]
  · rw [hl, hl']; exact hw.keys_eq e.outer

theorem registrations_eq (h : e.Grows e') : e'.registrations = e.registrations := by
  rw [Entry.registrations, h.keys_eq, h.handle]; rfl

theorem scope_eq (h : e.Grows e') {s : Scope} (hs : e.content = .scope s) : e'.content = .scope s := by
  rcases h.content with hc | ⟨l, l', hl, _⟩
  · rw [hc, hs]
  · cases hl.symm.trans hs

theorem trans {e'' : Entry} (h : e.Grows e') (h' : e'.Grows e'') : e.Grows e'' where
  handle := h'.handle.trans h.handle
  outer := h'.outer.trans h.outer
  content := by
    rcases h.content with hc | ⟨l, l', hl, hl', hw⟩
    · rw [← hc]
      exact h'.content
    · right
      rcases h'.content with hc' | ⟨k, k', hk, hk', hw'⟩
      · exact ⟨l, l', hl, hc'.trans hl', hw⟩
      · cases hl'.symm.trans hk
        exact ⟨l, k', hl, hk', hw.trans hw'⟩
  comments := List.Subset.trans h.comments h'.comments
  location := h'.location.trans h.location

end Entry.Grows

theorem exists_of_forall₂ {α β : Type} {R : α → β → Prop} {as : List α} {bs : List β}
    (h : List.Forall₂ R as bs) : ∀ a ∈ as, ∃ b ∈ bs, R a b := by
  induction h with
  | nil => simp
  | cons hab _ ih =>
      intro a ha
      rcases List.mem_cons.mp ha with rfl | ha
      · exact ⟨_, List.mem_cons_self, hab⟩
      · obtain ⟨b, hb, hab⟩ := ih a ha
        exact ⟨b, List.mem_cons_of_mem _ hb, hab⟩

theorem forall₂_grows_refl (es : List Entry) : List.Forall₂ Entry.Grows es es :=
  List.forall₂_same.mpr fun e _ => .refl e

namespace Merge

open Outline (plug)

namespace Edit

variable {labels : Labels} {k : Handle} {adds : Bool} {j : Nat} {x y : Outline}

theorem handle_eq (h : Edit labels k adds j x y) : y.handle = x.handle := by
  cases h <;> rfl

theorem admits (h : Edit labels k adds j x y) (fr : Frame) (ha : fr.admits x = true) :
    fr.admits y = true := by
  cases h with
  | unite =>
      cases fr with
      | node => exact ha
      | left _ form => cases form <;> simp [Frame.admits, ConflictForm.suits, Outline.content?,
          ConflictForm.accepts] at ha
  | grow | annotate | contest | join | oppose => rwa [← fr.admits_congr]; rfl

theorem content? (h : Edit labels k adds j x y) (hx : x.content? = some .tree) :
    y.content? = some .tree := by
  cases h with
  | unite => cases hx
  | grow | annotate | contest | join | oppose => exact hx

theorem handles (h : Edit labels k adds j x y) : y.handles.Perm (x.handles ++ List.range' k j) := by
  cases h with
  | grow => simp
  | annotate => simp
  | unite => simp
  | contest q c n before after h t m cs s m' =>
      simp only [Outline.handles_node, Outline.handles_conflict, List.flatMap_append,
        List.flatMap_cons, List.flatMap_nil, List.append_assoc, List.cons_append, List.nil_append,
        List.range']
      grind
  | join => simp [List.range']
  | oppose q c n before after x l m =>
      simp only [Outline.handles_node, Outline.handles_conflict, List.flatMap_append,
        List.flatMap_cons, List.flatMap_nil, List.append_assoc, List.cons_append, List.nil_append,
        List.append_nil, List.range']
      grind

theorem sound (h : Edit labels k adds j x y) (hs : x.sound = true) : y.sound = true := by
  cases h with
  | grow h c n cs d m hc hd =>
      rw [Outline.sound_node] at hs ⊢
      refine ⟨Or.inl hc, ?_⟩
      intro o ho
      rcases List.mem_append.mp ho with ho | ho
      · exact hs.2 o ho
      · cases List.mem_singleton.mp ho
        simp
  | annotate => simpa using hs
  | unite => simpa [Content.isContainer] using hs
  | contest q c n before after h t m cs s m' =>
      rw [Outline.sound_node] at hs ⊢
      refine ⟨by simpa using hs.1, ?_⟩
      have hx := hs.2 (.node h (.scope t) m cs) (by simp)
      intro o ho
      simp only [List.mem_append, List.mem_cons] at ho
      rcases ho with ho | rfl | ho
      · exact hs.2 o (by simp [ho])
      · rw [Outline.sound_conflict]
        exact ⟨⟨rfl, rfl⟩, hx, by simp⟩
      · exact hs.2 o (by simp [ho])
  | join q old n left r m rs l m' =>
      rw [Outline.sound_conflict, Outline.sound_node] at hs ⊢
      refine ⟨hs.1, hs.2.1, Or.inl rfl, ?_⟩
      intro o ho
      rcases List.mem_append.mp ho with ho | ho
      · exact hs.2.2.2 o ho
      · cases List.mem_singleton.mp ho
        simp
  | oppose q c n before after x l m =>
      rw [Outline.sound_node] at hs ⊢
      refine ⟨by simpa using hs.1, ?_⟩
      have hx := hs.2 x (by simp)
      intro o ho
      simp only [List.mem_append, List.mem_cons] at ho
      rcases ho with ho | rfl | ho
      · exact hs.2 o (by simp [ho])
      · simp [ConflictForm.suits, Outline.content?, ConflictForm.accepts, Content.isContainer, hx]
      · exact hs.2 o (by simp [ho])

theorem census (h : Edit labels k false j x y) (outer : String) :
    List.Forall₂ Entry.Grows (x.census outer) (y.census outer) := by
  cases h with
  | annotate h c n cs comments =>
      rw [Outline.census_node, Outline.census_node]
      refine List.rel_append ?_ (forall₂_grows_refl _)
      unfold Outline.ownEntry
      split
      · refine .cons ⟨rfl, rfl, Or.inl rfl, ?_, rfl⟩ .nil
        exact subset_union _ _
      · exact .nil
  | unite h l n cs l' comments hl =>
      rw [Outline.census_node, Outline.census_node]
      refine List.rel_append (.cons ⟨rfl, rfl, ?_, ?_, rfl⟩ .nil) (forall₂_grows_refl _)
      · exact Or.inr ⟨l, _, rfl, rfl, l.within_absorb l'⟩
      · exact subset_union _ _
  | contest | join | oppose =>
      simp only [Outline.census_node, Outline.census_conflict, List.flatMap_append, List.flatMap_cons, List.flatMap_nil, List.append_nil]
      exact forall₂_grows_refl _

end Edit

theorem census_grow (outer : String) (h k : Handle) (c d : Content) (n m : Notes) (cs : List Outline)
    (hd : d.isDeclaration = true) : (Outline.node h c n (cs ++ [.node k d m []])).census outer =
      (Outline.node h c n cs).census outer ++ [⟨k, c.qualify outer, d, m⟩] := by
  simp [Outline.ownEntry, hd]

namespace Draft

/-- No handle occurs twice, what has been entered is in the census under its name, and the index is what
the census says. -/
structure Valid (P : Draft) : Prop where
  nodup : P.handles.Nodup
  fresh : ∀ h ∈ P.handles, h < P.next
  sound : P.outline.sound = true
  root : P.outline.handle = Forest.root ∧ P.outline.content? = some .tree
  entered : ∀ x ∈ P.entered, ∃ e ∈ P.census, e.handle = x.1 ∧
    ∃ s, e.content = .scope s ∧ s.qualify e.outer = x.2
  index : P.index.newest.Perm (P.census.flatMap Entry.registrations)

/-- All that it takes to go on with a draft, whatever its index says beyond that. -/
structure Standing (P : Draft) : Prop where
  nodup : P.handles.Nodup
  fresh : ∀ h ∈ P.handles, h < P.next
  sound : P.outline.sound = true
  root : P.outline.handle = Forest.root ∧ P.outline.content? = some .tree
  entered : ∀ x ∈ P.entered, ∃ e ∈ P.census, e.handle = x.1 ∧
    ∃ s, e.content = .scope s ∧ s.qualify e.outer = x.2
  indexed : ∀ x ∈ P.index.newest, ∃ e ∈ P.census, e.handle = x.2

/-- What every event can go on with, one that carries over a conflict too. The index need not know all
declarations, but what it leads to under a key has that key. -/
structure Laden (P : Draft) : Prop where
  nodup : P.handles.Nodup
  fresh : ∀ h ∈ P.handles, h < P.next
  sound : P.outline.sound = true
  root : P.outline.handle = Forest.root ∧ P.outline.content? = some .tree
  entered : ∀ x ∈ P.entered, ∃ e ∈ P.census, e.handle = x.1 ∧
    ∃ s, e.content = .scope s ∧ s.qualify e.outer = x.2
  keyed : ∀ x ∈ P.index.newest, ∃ e ∈ P.census, e.handle = x.2 ∧ x.1 ∈ e.keys

variable {P : Draft} {path : List Frame} {x y : Outline} {labels : Labels} {adds : Bool} {j : Nat}

theorem valid_empty : empty.Valid where
  nodup := by simp [empty, handles]
  fresh := by simp [empty, handles, Forest.root]
  sound := rfl
  root := ⟨rfl, rfl⟩
  entered := by simp [empty]
  index := by simp [empty, census, Outline.ownEntry, Content.isDeclaration]

theorem mem_index (hv : P.Valid) {key : String} {h : Handle} (hm : (key, h) ∈ P.index.newest) :
    ∃ e ∈ P.census, e.handle = h ∧ key ∈ e.keys := by
  rw [hv.index.mem_iff, List.mem_flatMap] at hm
  obtain ⟨e, he, hm⟩ := hm
  obtain ⟨key', hk, heq⟩ := List.mem_map.mp hm
  cases heq
  exact ⟨e, he, rfl, hk⟩

theorem Valid.laden (hv : P.Valid) : P.Laden :=
  ⟨hv.nodup, hv.fresh, hv.sound, hv.root, hv.entered, fun _ hx => mem_index hv hx⟩

theorem Laden.standing (hv : P.Laden) : P.Standing := by
  refine ⟨hv.nodup, hv.fresh, hv.sound, hv.root, hv.entered, fun x hx => ?_⟩
  obtain ⟨e, he, hh, -⟩ := hv.keyed x hx
  exact ⟨e, he, hh⟩

theorem Valid.standing (hv : P.Valid) : P.Standing := hv.laden.standing

theorem handles_changed (dropped : List Outline) (hp : P.outline = plug path x)
    (hh : (y.handles ++ dropped.flatMap Outline.handles).Perm (x.handles ++ List.range' P.next j)) :
    ((plug path y).handles ++ (P.loose ++ dropped).flatMap Outline.handles).Perm
      (P.handles ++ List.range' P.next j) := by
  rw [List.perm_iff_count]
  intro a
  have hy := (Outline.handles_plug path y).count_eq a
  have hx := (Outline.handles_plug path x).count_eq a
  have hxy := hh.count_eq a
  simp only [List.count_append] at hx hy hxy
  simp only [handles, hp, List.flatMap_append, List.count_append]
  omega

theorem handles_edit (hp : P.outline = plug path x) (he : Edit labels P.next adds j x y) :
    ((plug path y).handles ++ P.loose.flatMap Outline.handles).Perm
      (P.handles ++ List.range' P.next j) := by
  simpa using handles_changed [] hp (by simpa using he.handles)

theorem Standing.changed (hv : P.Standing) {hs : List Handle}
    (hh : hs.Perm (P.handles ++ List.range' P.next j)) : hs.Nodup ∧ ∀ h ∈ hs, h < P.next + j := by
  refine ⟨?_, fun h hm => ?_⟩
  · rw [hh.nodup_iff, List.nodup_append']
    refine ⟨hv.nodup, List.nodup_range', fun h hold hnew => ?_⟩
    exact Nat.not_lt.mpr (List.mem_range'_1.mp hnew).1 (hv.fresh h hold)
  · rw [hh.mem_iff, List.mem_append, List.mem_range'_1] at hm
    rcases hm with hm | hm
    · exact Nat.lt_add_right j (hv.fresh h hm)
    · exact hm.2

theorem Standing.root_change (hv : P.Standing) (hp : P.outline = plug path x) (hxy : path = [] →
      y.handle = x.handle ∧ (x.content? = some .tree → y.content? = some .tree)) :
    (plug path y).handle = Forest.root ∧ (plug path y).content? = some .tree := by
  have hroot := hv.root
  rw [hp] at hroot
  cases path with
  | nil =>
      obtain ⟨hh, hc⟩ := hxy rfl
      exact ⟨hh.trans hroot.1, hc hroot.2⟩
  | cons fr path =>
      refine ⟨(@Outline.handle_plug path _ _ (by simp)).trans hroot.1, ?_⟩
      exact @Outline.content?_plug path _ _ (fun c h => by rw [← h, fr.content?_fill y x]) _ hroot.2

theorem census_edit (hp : P.outline = plug path x) (he : Edit labels P.next false j x y) :
    List.Forall₂ Entry.Grows P.census ((plug path y).census "") := by
  obtain ⟨pre, post, h⟩ := Outline.census_plug "" path
  rw [census, hp, h, h]
  exact List.rel_append (List.rel_append (forall₂_grows_refl _) (he.census _)) (forall₂_grows_refl _)

theorem census_added {h : Handle} {c d : Content} {n m : Notes} {cs : List Outline}
    (hp : P.outline = plug path (.node h c n cs)) (hd : d.isDeclaration = true)
    (hn : c.qualify (pathName "" path) = P.name) :
    ((plug path (.node h c n (cs ++ [.node P.next d m []]))).census "").Perm
      (⟨P.next, P.name, d, m⟩ :: P.census) := by
  obtain ⟨pre, post, h⟩ := Outline.census_plug "" path
  rw [census, hp, h, h, census_grow _ _ _ _ _ _ _ _ hd, hn]
  simp only [List.append_assoc, List.singleton_append]
  rw [← List.append_assoc, ← List.append_assoc]
  exact List.perm_middle

theorem flatMap_registrations {es es' : List Entry} (h : List.Forall₂ Entry.Grows es es') :
    es'.flatMap Entry.registrations = es.flatMap Entry.registrations := by
  induction h with
  | nil => rfl
  | cons h _ ih => rw [List.flatMap_cons, List.flatMap_cons, h.registrations_eq, ih]

theorem newest_insertAll (i : Index) (keys : List String) (h : Handle) :
    (i.insertAll keys h).newest = (keys.map (·, h)).reverse ++ i.newest := by
  induction keys generalizing i with
  | nil => rfl
  | cons key keys ih =>
      rw [Index.insertAll, List.foldl_cons, ← Index.insertAll, ih]
      simp [Index.insert]

theorem index_added {d : Content} {m : Notes} {es : List Entry}
    (hi : P.index.newest.Perm (P.census.flatMap Entry.registrations))
    (hes : es.Perm (⟨P.next, P.name, d, m⟩ :: P.census)) :
    (P.index.insertAll (d.keys P.name) P.next).newest.Perm (es.flatMap Entry.registrations) := by
  rw [newest_insertAll]
  refine List.Perm.trans ?_ (hes.flatMap_right _).symm
  rw [List.flatMap_cons]
  exact (List.reverse_perm _).append hi

theorem entered_grows {es : List Entry} (hg : ∀ e ∈ P.census, ∃ e' ∈ es, e.Grows e')
    {x : Handle × String}
    (hx : ∃ e ∈ P.census, e.handle = x.1 ∧ ∃ s, e.content = .scope s ∧ s.qualify e.outer = x.2) :
    ∃ e ∈ es, e.handle = x.1 ∧ ∃ s, e.content = .scope s ∧ s.qualify e.outer = x.2 := by
  obtain ⟨e, he, hh, s, hs, hq⟩ := hx
  obtain ⟨e', he', hg⟩ := hg e he
  exact ⟨e', he', by rw [hg.handle, hh], s, hg.scope_eq hs, by rw [hg.outer, hq]⟩

theorem Standing.nodup_outline (hv : P.Standing) : P.outline.handles.Nodup :=
  (List.nodup_append'.mp hv.nodup).1

theorem Valid.nodup_outline (hv : P.Valid) : P.outline.handles.Nodup :=
  (List.nodup_append'.mp hv.nodup).1

theorem mem_recent {i : Index} {key : String} {h : Handle} (hm : h ∈ i.recent key) :
    (key, h) ∈ i.newest := by
  rw [Index.recent, List.mem_filterMap] at hm
  obtain ⟨⟨k, h'⟩, hm, he⟩ := hm
  split at he
  · cases he
    rwa [← ‹k = key›]
  · cases he

theorem scope_of_scopeUnder (hv : P.Laden) {key : String} {h : Handle}
    (hu : P.scopeUnder? key = some h) :
    ∃ e ∈ P.census, e.handle = h ∧ ∃ s, e.content = .scope s ∧ s.qualify e.outer = key := by
  have hm := List.mem_of_find?_eq_some hu
  have hs := List.find?_some hu
  obtain ⟨e, he, hh, hk⟩ := hv.keyed _ (mem_recent hm)
  rw [isScopeAt, List.any_eq_true] at hs
  obtain ⟨e', he', hs⟩ := hs
  rw [Bool.and_eq_true, decide_eq_true_eq] at hs
  cases Outline.census_unique hv.standing.nodup_outline he he' (hh.trans hs.1.symm)
  refine ⟨e, he, hh, ?_⟩
  cases hc : e.content with
  | scope s =>
      rw [Entry.keys, hc] at hk
      exact ⟨s, rfl, (List.mem_singleton.mp hk).symm⟩
  | tree | visibilityGroup | group | leaf => simp [hc, Content.scope?] at hs

/-- Nothing is entered but what has been before and what is found in the index. -/
def Opens (P : Draft) (entered : List (Handle × String)) : Prop :=
  ∀ x ∈ entered, x ∈ P.entered ∨ P.scopeUnder? x.2 = some x.1

/-- A step edits a place of a draft, adds a declaration to it, leaves a header loose, or does nothing to
its outline. -/
inductive Alters (P : Draft) : Draft → Prop
  | edited (labels : Labels) (path : List Frame) (x y : Outline) (j : Nat)
      (entered : List (Handle × String)) (conflicts : List Conflict) (hp : P.outline = plug path x)
      (he : Edit labels P.next false j x y) (hen : P.Opens entered) :
      Alters P ⟨plug path y, P.loose, P.index, entered, conflicts, P.next + j⟩
  | grown (path : List Frame) (c d : Content) (n m : Notes) (cs : List Outline)
      (entered : List (Handle × String)) (hp : P.outline = plug path (.node P.current c n cs))
      (hc : c.isContainer = true) (hd : d.isDeclaration = true)
      (hn : c.qualify (pathName "" path) = P.name)
      (hen : ∀ x ∈ entered, x ∈ P.entered ∨ ∃ s, d = .scope s ∧ x = (P.next, s.qualify P.name)) :
      Alters P ⟨plug path (.node P.current c n (cs ++ [.node P.next d m []])), P.loose,
        P.index.insertAll (d.keys P.name) P.next, entered, P.conflicts, P.next + 1⟩
  | loosened (s : Scope) (n : Notes) (entered : List (Handle × String)) (conflicts : List Conflict)
      (hen : P.Opens entered) :
      Alters P ⟨P.outline, P.loose ++ [.node P.next (.scope s) n []], P.index, entered, conflicts,
        P.next + 1⟩
  | kept (entered : List (Handle × String)) (hen : P.Opens entered) :
      Alters P { P with entered := entered }

theorem opens_self (P : Draft) : P.Opens P.entered := fun _ hx => Or.inl hx

theorem opens_tail (P : Draft) : P.Opens P.entered.tail := fun _ hx => Or.inl (List.mem_of_mem_tail hx)

theorem opens_found {key : String} {h : Handle} (hu : P.scopeUnder? key = some h) :
    P.Opens ((h, key) :: P.entered) := by
  intro x hx
  rcases List.mem_cons.mp hx with rfl | hx
  · exact Or.inr hu
  · exact Or.inl hx

theorem Laden.opens (hv : P.Laden) {entered : List (Handle × String)} (hen : P.Opens entered) :
    ∀ x ∈ entered, ∃ e ∈ P.census, e.handle = x.1 ∧
      ∃ s, e.content = .scope s ∧ s.qualify e.outer = x.2 := by
  intro x hx
  rcases hen x hx with hx | hu
  · exact hv.entered x hx
  · exact scope_of_scopeUnder hv hu

theorem Alters.index {Q : Draft} (ha : P.Alters Q)
    (hi : P.index.newest.Perm (P.census.flatMap Entry.registrations)) :
    Q.index.newest.Perm (Q.census.flatMap Entry.registrations) := by
  cases ha with
  | edited _ path x y j _ _ hp he =>
      rw [census, flatMap_registrations (census_edit hp he)]
      exact hi
  | grown path c d n m cs _ hp hc hd hn => exact index_added hi (census_added hp hd hn)
  | loosened => exact hi
  | kept => exact hi

theorem keyed_grows {es : List Entry} (hg : ∀ e ∈ P.census, ∃ e' ∈ es, e.Grows e')
    {x : String × Handle} (hx : ∃ e ∈ P.census, e.handle = x.2 ∧ x.1 ∈ e.keys) :
    ∃ e ∈ es, e.handle = x.2 ∧ x.1 ∈ e.keys := by
  obtain ⟨e, he, hh, hk⟩ := hx
  obtain ⟨e', he', hg⟩ := hg e he
  exact ⟨e', he', hg.handle.trans hh, hg.keys_eq ▸ hk⟩

theorem Alters.laden {Q : Draft} (ha : P.Alters Q) (hv : P.Laden) : Q.Laden := by
  cases ha with
  | edited _ path x y j entered _ hp he hen =>
      have hg := exists_of_forall₂ (census_edit hp he)
      have hh := hv.standing.changed (handles_edit hp he)
      refine ⟨hh.1, hh.2, ?_, ?_, ?_, fun x hx => keyed_grows hg (hv.keyed x hx)⟩
      · exact Outline.sound_plug_of (hp ▸ hv.sound) he.sound fun fr _ _ => he.admits fr
      · exact hv.standing.root_change hp fun _ => ⟨he.handle_eq, he.content?⟩
      · exact fun x hx => entered_grows hg (hv.opens hen x hx)
  | grown path c d n m cs entered hp hc hd hn hen =>
      have he : Edit ⟨"", ""⟩ P.next true 1 (.node P.current c n cs)
          (.node P.current c n (cs ++ [.node P.next d m []])) := .grow _ _ _ _ _ _ hc hd
      have hadd : ((plug path (.node P.current c n (cs ++ [.node P.next d m []]))).census "").Perm
          (⟨P.next, P.name, d, m⟩ :: P.census) := census_added hp hd hn
      have hg : ∀ e ∈ P.census, ∃ e' ∈ (plug path (.node P.current c n
          (cs ++ [.node P.next d m []]))).census "", e.Grows e' := fun e he =>
        ⟨e, hadd.mem_iff.mpr (List.mem_cons_of_mem _ he), .refl e⟩
      have hh := hv.standing.changed (handles_edit hp he)
      refine ⟨hh.1, hh.2, ?_, ?_, ?_, ?_⟩
      · exact Outline.sound_plug_of (hp ▸ hv.sound) he.sound fun fr _ _ => he.admits fr
      · exact hv.standing.root_change hp fun _ => ⟨he.handle_eq, he.content?⟩
      · intro x hx
        rcases hen x hx with hx | ⟨s, rfl, rfl⟩
        · exact entered_grows hg (hv.entered x hx)
        · exact ⟨_, hadd.mem_iff.mpr List.mem_cons_self, rfl, s, rfl, rfl⟩
      · intro x hx
        rw [newest_insertAll, List.mem_append, List.mem_reverse] at hx
        rcases hx with hx | hx
        · obtain ⟨key, hkey, rfl⟩ := List.mem_map.mp hx
          exact ⟨_, hadd.mem_iff.mpr List.mem_cons_self, rfl, hkey⟩
        · exact keyed_grows hg (hv.keyed x hx)
  | loosened s n entered _ hen =>
      have hh : P.outline.handles ++ (P.loose ++ [Outline.node P.next (.scope s) n []]).flatMap
          Outline.handles = P.handles ++ List.range' P.next 1 := by simp [handles]
      have hh := hv.standing.changed (.of_eq hh)
      exact ⟨hh.1, hh.2, hv.sound, hv.root, hv.opens hen, hv.keyed⟩
  | kept entered hen => exact { hv with entered := hv.opens hen }

end Draft

variable {o : Options} {P Q : Draft} {e : Event}

theorem Step.alters (hs : Step o P e Q) : P.Alters Q := by
  cases hs with
  | newScope s n path c m cs hu hp hc hn =>
      refine .grown path c (.scope s) m n cs _ hp hc rfl hn ?_
      intro x hx
      rcases List.mem_cons.mp hx with rfl | hx
      · exact Or.inr ⟨s, rfl, rfl⟩
      · exact Or.inl hx
  | knownScope s n path h m cs hu hp =>
      exact .edited o.labels path _ _ 0 _ _ hp (.annotate _ _ _ _ _) (Draft.opens_found hu)
  | keptHeader s n path h t m cs hu => exact .kept _ (Draft.opens_found hu)
  | contestedHeader s n path q c nq before after h t m cs hu hp =>
      exact .edited o.labels path _ _ 2 _ _ hp (.contest _ _ _ _ _ _ _ _ _ _ _) (Draft.opens_found hu)
  | repeatedHeader s n path q old nq r h t m cs hu =>
      exact .loosened s n _ _ (Draft.opens_found hu)
  | left => exact .kept _ P.opens_tail
  | newLeaf l n path c m cs hu hp hc hn =>
      exact .grown path c (.leaf l) m n cs _ hp hc rfl hn fun x hx => Or.inl hx
  | unitedLeaf l n path key h l' m cs hu hp hl =>
      exact .edited o.labels path _ _ 0 _ _ hp (.unite _ _ _ _ _ _ hl) P.opens_self
  | keptLeaf => exact .kept _ P.opens_self
  | joinedLeaf l n path key q old nq b nb before after h c m cs r nr rs hu hp =>
      exact .edited o.labels path _ _ 1 _ _ hp (.join _ _ _ _ _ _ _ _ _) P.opens_self
  | opposedLeaf l n path key q d nq before after h c m cs hu hp =>
      exact .edited o.labels path _ _ 4 _ _ hp (.oppose _ _ _ _ _ _ _ _) P.opens_self
  | opposedHeaders l n path key q d nq before after k old nk h c m cs r hu hp =>
      exact .edited o.labels path _ _ 4 _ _ hp (.oppose _ _ _ _ _ _ _ _) P.opens_self
  | remarked comments path c m cs hp =>
      exact .edited o.labels path _ _ 0 _ _ hp (.annotate _ _ _ _ _) P.opens_self

theorem Step.laden (hv : P.Laden) (hs : Step o P e Q) : Q.Laden := hs.alters.laden hv

theorem Step.valid (hv : P.Valid) (hs : Step o P e Q) : Q.Valid := by
  have hl := hs.laden hv.laden
  exact ⟨hl.nodup, hl.fresh, hl.sound, hl.root, hl.entered, hs.alters.index hv.index⟩

end Merge

end Reconcile
