import Reconcile.Proofs.Forest.Amend
import Reconcile.Proofs.Forest.Flattening
import Reconcile.Proofs.Merge.Holder
import Reconcile.Proofs.Merge.Run

namespace Reconcile.Merge

open Outline (plug)

namespace Draft

variable {P : Draft}

/-- The place that is being filled. -/
structure Site (P : Draft) (path : List Frame) (c : Content) (m : Notes) (ds : List Outline) :
    Prop where
  outline : P.outline = plug path (.node P.current c m ds)
  container : c.isContainer = true
  name : c.qualify (pathName "" path) = P.name

/-- Nothing is registered under any key of the declarations. -/
def Unused (P : Draft) (es : List Entry) : Prop :=
  ∀ e ∈ es, ∀ x ∈ P.index.newest, x.1 ∉ e.keys

theorem unused_empty (es : List Entry) : empty.Unused es := by
  intro e _ x hx
  cases hx

theorem Unused.mono {es es' : List Entry} (h : P.Unused es) (hs : es' ⊆ es) : P.Unused es' :=
  fun e he => h e (hs he)

end Draft

variable {o : Options} {φ : Handle → Handle} {path : List Frame} {c : Content} {m : Notes}
  {ds os os' : List Outline} {P Q R : Draft}

theorem Runs.scope {s : Scope} {n : Notes} (k : Handle) (hs : Step o P (.enter s n) Q)
    (hr : Runs o Q (os.flatMap (Outline.script Q.name)) R) (he : R.entered = Q.entered) :
    Runs o P ((Outline.node k (.scope s) n os).script P.name)
      { R with entered := R.entered.tail } := by
  obtain ⟨h, hen⟩ := hs.entered_enter
  have hname : Q.name = s.qualify P.name := by simp [Draft.name, hen]
  have hleave := Runs.single (Step.left (o := o) (P := R))
  rw [name_eq he, hname] at hleave
  rw [hname] at hr
  simpa [Outline.script] using Runs.cons hs (hr.append hleave)

/-- `Q` is `P` with flat copies of `os` at the end of what is being filled. -/
structure Copies (o : Options) (φ : Handle → Handle) (path : List Frame) (c : Content) (m : Notes)
    (ds os : List Outline) (P Q : Draft) : Prop where
  runs : Runs o P (os.flatMap (Outline.script P.name)) Q
  outline : Q.outline = plug path (.node P.current c (m.addComments (os.flatMap Outline.remarks))
    (ds ++ (os.flatMap Outline.flat).map (Outline.rename φ)))
  loose : Q.loose = P.loose
  entered : Q.entered = P.entered
  conflicts : Q.conflicts = P.conflicts
  next : Q.next = P.next + (os.flatMap Outline.declared).length
  index : ∀ x ∈ Q.index.newest, x ∈ P.index.newest ∨
    ∃ e ∈ os.flatMap (Outline.census P.name), x.1 ∈ e.keys

/-- The renaming gives out handles in document order, the first being `k`. -/
def Numbers (φ : Handle → Handle) (k : Handle) (hs : List Handle) : Prop :=
  hs.map φ = List.range' k hs.length

theorem Numbers.append {k : Handle} {hs hs' : List Handle} (h : Numbers φ k (hs ++ hs')) :
    Numbers φ k hs ∧ Numbers φ (k + hs.length) hs' := by
  rw [Numbers, List.map_append, List.length_append, ← List.range'_append_1] at h
  exact List.append_inj h (by simp)

namespace Copies

theorem current (h : Copies o φ path c m ds os P Q) : Q.current = P.current := by
  rw [Draft.current, Draft.current, h.entered]

theorem site (h : Copies o φ path c m ds os P Q) (hp : P.Site path c m ds) :
    Q.Site path c (m.addComments (os.flatMap Outline.remarks))
      (ds ++ (os.flatMap Outline.flat).map (Outline.rename φ)) :=
  ⟨by rw [h.outline, h.current], hp.container, by rw [hp.name, name_eq h.entered]⟩

theorem append (h : Copies o φ path c m ds os P Q)
    (h' : Copies o φ path c (m.addComments (os.flatMap Outline.remarks))
      (ds ++ (os.flatMap Outline.flat).map (Outline.rename φ)) os' Q R) :
    Copies o φ path c m ds (os ++ os') P R where
  runs := by
    have hr := h'.runs
    rw [name_eq h.entered] at hr
    rw [List.flatMap_append]
    exact h.runs.append hr
  outline := by
    rw [h'.outline, h.current, List.flatMap_append, List.flatMap_append, Notes.addComments_append,
      List.map_append, List.append_assoc]
  loose := h'.loose.trans h.loose
  entered := h'.entered.trans h.entered
  conflicts := h'.conflicts.trans h.conflicts
  next := by
    rw [h'.next, h.next, List.flatMap_append, List.length_append, Nat.add_assoc]
  index := by
    intro x hx
    rw [List.flatMap_append]
    rcases h'.index x hx with hx | ⟨e, he, hk⟩
    · rcases h.index x hx with hx | ⟨e, he, hk⟩
      · exact Or.inl hx
      · exact Or.inr ⟨e, List.mem_append_left _ he, hk⟩
    · rw [name_eq h.entered] at he
      exact Or.inr ⟨e, List.mem_append_right _ he, hk⟩

end Copies

/-- All that it takes to copy `os`: a place for them, keys that are not in use and handles. -/
structure Draft.Awaits (φ : Handle → Handle) (path : List Frame) (c : Content) (m : Notes)
    (ds os : List Outline) (P : Draft) : Prop where
  valid : P.Valid
  site : P.Site path c m ds
  unused : P.Unused (os.flatMap (Outline.census P.name))
  apart : (os.flatMap (Outline.census P.name)).Pairwise Entry.Apart
  numbers : Numbers φ P.next (os.flatMap Outline.declared)

open Draft (Awaits)

theorem exists_copies_all (h : P.Awaits φ path c m ds os)
    (hos : ∀ x ∈ os, ∀ {P : Draft} {path c m ds}, P.Awaits φ path c m ds [x] →
      ∃ Q, Copies o φ path c m ds [x] P Q) : ∃ Q, Copies o φ path c m ds os P Q := by
  induction os generalizing P m ds with
  | nil =>
      refine ⟨P, .nil P, ?_, rfl, rfl, rfl, rfl, fun x hx => Or.inl hx⟩
      simpa [Notes.addComments_nil] using h.site.outline
  | cons x os ih =>
      have hu := h.unused
      have ha := h.apart
      have hn := h.numbers
      rw [List.flatMap_cons] at hu ha hn
      rw [List.pairwise_append] at ha
      have hx : P.Awaits φ path c m ds [x] :=
        ⟨h.valid, h.site, by simpa using hu.mono (List.subset_append_left _ _), by simpa using ha.1,
          by simpa using hn.append.1⟩
      obtain ⟨Q, hQ⟩ := hos x (by simp) hx
      have hname := name_eq hQ.entered
      have hrest : Q.Awaits φ path c (m.addComments ([x].flatMap Outline.remarks))
          (ds ++ ([x].flatMap Outline.flat).map (Outline.rename φ)) os := by
        refine ⟨hQ.runs.valid h.valid, hQ.site h.site, ?_, by rw [hname]; exact ha.2.1, ?_⟩
        · rw [hname]
          intro e he y hy hk
          rcases hQ.index y hy with hy | ⟨e', he', hk'⟩
          · exact hu e (List.mem_append_right _ he) y hy hk
          · exact ha.2.2 e' (by simpa using he') e he hk' hk
        · rw [hQ.next]
          simpa using hn.append.2
      obtain ⟨R, hR⟩ := ih hrest fun y hy => hos y (by simp [hy])
      exact ⟨R, hQ.append hR⟩

section

variable {k : Handle} {n : Notes} {cs : List Outline}

theorem Draft.Awaits.own {d : Content} (h : P.Awaits φ path c m ds [.node k d n cs])
    (hd : d.isDeclaration = true) : (∀ x ∈ P.index.newest, x.1 ∉ d.keys P.name) ∧
      φ k = P.next ∧ Numbers φ (P.next + 1) (cs.flatMap Outline.declared) := by
  have hu := h.unused
  have hn := h.numbers
  simp only [List.flatMap_singleton, Outline.declared_node, hd, if_true, Outline.census_node,
    Outline.ownEntry] at hu hn
  have hφ := hn.append
  refine ⟨?_, by simpa [Numbers] using hφ.1, by simpa using hφ.2⟩
  exact hu ⟨k, P.name, d, n⟩ (by simp)

theorem exists_copies_leaf {l : Leaf} (h : P.Awaits φ path c m ds [.node k (.leaf l) n []]) :
    ∃ Q, Copies o φ path c m ds [.node k (.leaf l) n []] P Q := by
  obtain ⟨hu, hφ, -⟩ := h.own rfl
  have hs : Step o P (.declare l n) _ := .newLeaf l n path c m ds (Draft.previous?_eq_none hu)
    h.site.outline h.site.container h.site.name
  have hr : Runs o P ([Outline.node k (.leaf l) n []].flatMap (Outline.script P.name)) _ := .single hs
  refine ⟨_, hr, ?_, rfl, rfl, rfl, ?_, ?_⟩
  · simp [Outline.flat_declaration (c := .leaf l) rfl, Outline.remarks_declaration (c := .leaf l) rfl,
      hφ, Notes.addComments_nil]
  · simp [Content.isDeclaration]
  · intro x hx
    rw [Draft.newest_insertAll, List.mem_append, List.mem_reverse, List.mem_map] at hx
    rcases hx with ⟨key, hkey, rfl⟩ | hx
    · exact Or.inr ⟨⟨k, P.name, .leaf l, n⟩, by simp [Outline.ownEntry, Content.isDeclaration], hkey⟩
    · exact Or.inl hx

theorem exists_copies_scope {s : Scope} (h : P.Awaits φ path c m ds [.node k (.scope s) n cs])
    (hcs : ∀ {P : Draft} {path c m ds}, P.Awaits φ path c m ds cs →
      ∃ Q, Copies o φ path c m ds cs P Q) :
    ∃ Q, Copies o φ path c m ds [.node k (.scope s) n cs] P Q := by
  obtain ⟨hu, hφ, hn⟩ := h.own rfl
  have hs : Step o P (.enter s n) _ := .newScope s n path c m ds
    (Draft.scopeUnder?_eq_none fun x hx heq => hu x hx (by simp [Content.keys, heq])) h.site.outline
    h.site.container h.site.name
  have hunused := h.unused
  have hapart := h.apart
  simp only [List.flatMap_singleton, Outline.census_node, Outline.ownEntry, Content.isDeclaration,
    if_true, List.singleton_append, List.pairwise_cons] at hunused hapart
  obtain ⟨Q, hQ⟩ := @hcs _ (.node P.current c m ds [] :: path) (.scope s) n [] (by
    refine ⟨hs.valid h.valid, ⟨rfl, rfl, ?_⟩, ?_, hapart.2, hn⟩
    · exact congrArg s.qualify h.site.name
    · intro e he x hx hk
      rcases List.mem_cons.mp hx with rfl | hx
      · exact hapart.1 e he (List.mem_singleton_self _) hk
      · exact hunused e (List.mem_cons_of_mem _ he) x hx hk)
  refine ⟨{ Q with entered := Q.entered.tail }, ?_, ?_, hQ.loose, ?_, hQ.conflicts, ?_, ?_⟩
  · rw [List.flatMap_singleton]
    exact .scope k hs hQ.runs hQ.entered
  · rw [hQ.outline]
    simp [Outline.flat_declaration (c := .scope s) rfl,
      Outline.remarks_declaration (c := .scope s) rfl, hφ, Notes.addComments_nil, plug, Frame.fill,
      Draft.current]
  · rw [hQ.entered]
    rfl
  · rw [hQ.next]
    simp [Content.isDeclaration]
    omega
  · intro x hx
    simp only [List.flatMap_singleton, Outline.census_node, Outline.ownEntry, Content.isDeclaration,
      if_true, List.singleton_append, List.mem_cons, exists_eq_or_imp]
    rcases hQ.index x hx with hx | hx
    · rcases List.mem_cons.mp hx with rfl | hx
      · exact Or.inr (Or.inl (List.mem_singleton_self _))
      · exact Or.inl hx
    · exact Or.inr (Or.inr hx)

theorem exists_copies_container {d : Content} (h : P.Awaits φ path c m ds [.node k d n cs])
    (hd : d.isDeclaration = false)
    (hscript : (Outline.node k d n cs).script P.name =
      (P.name, .remark n.comments) :: cs.flatMap (Outline.script P.name))
    (hcs : ∀ {P : Draft} {path c m ds}, P.Awaits φ path c m ds cs →
      ∃ Q, Copies o φ path c m ds cs P Q) :
    ∃ Q, Copies o φ path c m ds [.node k d n cs] P Q := by
  have hs : Step o P (.remark n.comments) _ := .remarked n.comments path c m ds h.site.outline
    h.site.name
  have hunused := h.unused
  have hapart := h.apart
  have hn := h.numbers
  have hcensus : [Outline.node k d n cs].flatMap (Outline.census P.name) =
      cs.flatMap (Outline.census P.name) := by
    simp [Outline.ownEntry, hd, Outline.qualify_container hd]
  have hdeclared : [Outline.node k d n cs].flatMap Outline.declared = cs.flatMap Outline.declared := by
    simp [hd]
  rw [hcensus] at hunused hapart
  rw [hdeclared] at hn
  have hinside : Awaits φ path c (m.addComments n.comments) ds cs _ :=
    ⟨hs.valid h.valid, ⟨rfl, h.site.container, h.site.name⟩, hunused, hapart, hn⟩
  obtain ⟨Q, hQ⟩ := hcs hinside
  refine ⟨Q, ?_, ?_, hQ.loose, hQ.entered, hQ.conflicts, ?_, ?_⟩
  · rw [List.flatMap_singleton, hscript]
    exact Runs.cons hs hQ.runs
  · rw [hQ.outline, List.flatMap_singleton, List.flatMap_singleton, Outline.remarks_container hd,
      Outline.flat_container hd, Notes.addComments_append]
    rfl
  · rw [hdeclared]
    exact hQ.next
  · rw [hcensus]
    exact hQ.index

end

theorem exists_copies {x : Outline} (hs : x.sound = true) (hc : x.conflictFree = true)
    (h : P.Awaits φ path c m ds [x]) : ∃ Q, Copies o φ path c m ds [x] P Q := by
  induction x generalizing P path c m ds with
  | conflict => cases hc
  | node k d n cs ih =>
      rw [Outline.conflictFree_node] at hc
      rw [Outline.sound_node] at hs
      have hcs {P : Draft} {path c m ds} (h : P.Awaits φ path c m ds cs) :=
        exists_copies_all (o := o) h fun x hx _ _ _ _ _ hx' => ih x hx (hs.2 x hx) (hc x hx) hx'
      cases d with
      | leaf l =>
          cases hs.1.resolve_left (by simp [Content.isContainer])
          exact exists_copies_leaf h
      | scope s => exact exists_copies_scope h hcs
      | tree | visibilityGroup | group =>
          exact exists_copies_container h rfl (by simp [Outline.script]) hcs

theorem numbers_idxOf {hs : List Handle} (hd : hs.Nodup) (k : Handle) :
    Numbers (fun h => k + hs.idxOf h) k hs := by
  rw [Numbers, List.range'_eq_map_range]
  apply List.ext_getElem (by simp)
  intro i hi _
  rw [List.length_map] at hi
  simp [hd.idxOf_getElem i hi]

/-- The handle under which the first tree of a merge is continued in the output. -/
def copyOf (T : Outline) (h : Handle) : Handle := 1 + T.declared.idxOf h

/-- A tree without duplicates is copied as a whole if it is the first. -/
theorem exists_first_copy (o : Options) {T : Outline} (hs : T.sound = true)
    (hc : T.conflictFree = true) (hd : T.handles.Nodup)
    (ha : (T.census "").Pairwise Entry.Apart) :
    ∃ Q, Copies o (copyOf T) [] .tree {} [] [T] .empty Q := by
  refine exists_copies hs hc ⟨Draft.valid_empty, ⟨rfl, rfl, rfl⟩, Draft.unused_empty _, ?_, ?_⟩
  · rw [List.flatMap_singleton]
    exact ha
  · have hn : T.declared.Nodup := hd.sublist (Outline.sublist_handles_census "" T)
    rw [List.flatMap_singleton]
    exact numbers_idxOf hn 1

theorem copyOf_inj {T : Outline} {h h' : Handle} (hm : h ∈ T.declared)
    (heq : copyOf T h = copyOf T h') : h = h' :=
  (List.idxOf_inj hm).mp (Nat.add_left_cancel heq)

theorem copyOf_injective {T : Outline} {e e' : Entry} (hd : T.handles.Nodup) (he : e ∈ T.census "")
    (he' : e' ∈ T.census "") (h : copyOf T e.handle = copyOf T e'.handle) : e = e' :=
  Outline.census_unique hd he he' (copyOf_inj (List.mem_map_of_mem he) h)

theorem Copies.census_first {T : Outline} (hc : T.conflictFree = true)
    (h : Copies o φ [] .tree {} [] [T] .empty Q) :
    List.Forall₂ (fun a e => ({ a with handle := φ a.handle } : Entry).Grows e ∧ e.content = a.content)
      (T.census "") Q.census := by
  have hcensus : Q.census = (T.flat.flatMap (Outline.census "")).map
      fun e => { e with handle := φ e.handle } := by
    rw [Draft.census, h.outline, List.flatMap_singleton, List.flatMap_singleton, plug,
      Outline.census_node, List.nil_append, List.flatMap_map, List.map_flatMap]
    exact List.flatMap_congr fun x _ => Outline.census_rename "" x
  rw [hcensus, List.forall₂_map_right_iff]
  refine (Outline.census_flat hc "").imp ?_
  rintro a e ⟨hg, he⟩
  exact ⟨⟨congrArg φ hg.handle, hg.outer, Or.inl he, hg.comments, hg.location⟩, he⟩

theorem Copies.mem_newest_first {T : Outline} (hc : T.conflictFree = true)
    (h : Copies o φ [] .tree {} [] [T] .empty Q) {x : String × Handle} :
    x ∈ Q.index.newest ↔ ∃ a ∈ T.census "", φ a.handle = x.2 ∧ x.1 ∈ a.keys := by
  have hcensus := h.census_first hc
  rw [(h.runs.valid Draft.valid_empty).mem_newest_iff]
  constructor
  · rintro ⟨e, he, hh, hk⟩
    obtain ⟨a, ha, hg, -⟩ := exists_of_forall₂ (List.Forall₂.flip hcensus) e he
    rw [hg.keys_eq] at hk
    exact ⟨a, ha, hg.handle.symm.trans hh, hk⟩
  · rintro ⟨a, ha, hh, hk⟩
    obtain ⟨e, he, hg, -⟩ := exists_of_forall₂ hcensus a ha
    exact ⟨e, he, hg.handle.trans hh, hg.keys_eq ▸ hk⟩

end Reconcile.Merge
