import Reconcile.Proofs.Merge.Settlement
import Reconcile.Proofs.Normal.Rework

namespace Reconcile

open Outline (plug)

namespace Entry

/-- A declaration without its handle and location. -/
def gist (e : Entry) : Entry := { e with handle := 0, notes := e.notes.unlocated }

/-- Two declarations have no key in common, or they are the same scope. -/
def Coexist (e d : Entry) : Prop := e.Apart d ∨ e.gist = d.gist ∧ ∃ s, d.content = .scope s

variable {e d : Entry}

@[simp] theorem keys_gist (e : Entry) : e.gist.keys = e.keys := rfl

theorem eq_of_gist (h : e.gist = d.gist) : e.outer = d.outer ∧ e.content = d.content ∧
    e.notes.comments = d.notes.comments := by
  simp only [gist, Entry.mk.injEq, Notes.unlocated, Notes.mk.injEq] at h
  exact ⟨h.2.1, h.2.2.1, h.2.2.2.1⟩

end Entry

theorem Outline.notes_plug {path : List Frame} {x y : Outline} (h : x.notes = y.notes) :
    (plug path x).notes = (plug path y).notes := by
  induction path generalizing x y with
  | nil => exact h
  | cons fr path ih =>
      refine ih ?_
      cases fr with
      | node | left => rfl

namespace Merge

namespace Draft

/-- The draft declares these entries, each of them once, and nothing else. Its root has the notes. -/
structure Lists (P : Draft) (n : Notes) (ds : List Entry) : Prop where
  notes : P.outline.notes = n
  handles : P.outline.handles.Perm (Forest.root :: P.census.map Entry.handle)
  apart : P.census.Pairwise Entry.Apart
  declared : ∀ e, e ∈ P.census.map Entry.gist ↔ e ∈ ds.map Entry.gist

variable {P : Draft} {n : Notes} {ds : List Entry} {d e : Entry}

theorem lists_empty : empty.Lists {} [] := by
  refine ⟨rfl, ?_, ?_, ?_⟩
  · simp [empty, census, Outline.ownEntry, Content.isDeclaration]
  · simp [empty, census, Outline.ownEntry, Content.isDeclaration]
  · simp [empty, census, Outline.ownEntry, Content.isDeclaration]

namespace Lists

theorem exists_listed (h : P.Lists n ds) (he : e ∈ P.census) : ∃ d ∈ ds, d.gist = e.gist :=
  List.mem_map.mp ((h.declared _).mp (List.mem_map_of_mem he))

theorem unique (h : P.Lists n ds) : P.Unique :=
  fun _ he _ he' hne _ => h.apart.forall he he' fun heq => hne (by rw [heq])

theorem apart_of_new (h : P.Lists n ds) (hd : ∀ e ∈ ds, e.Coexist d)
    (hnew : d.gist ∉ ds.map Entry.gist) (he : e ∈ P.census) : e.Apart d := by
  obtain ⟨d', hd', hg⟩ := h.exists_listed he
  rcases hd d' hd' with ha | ⟨heq, -⟩
  · rw [Entry.Apart, ← e.keys_gist, ← hg]
    exact ha
  · exact absurd (List.mem_map.mpr ⟨d', hd', heq⟩) hnew

theorem unused_of_new (h : P.Lists n ds) (hv : P.Valid) (hd : ∀ e ∈ ds, e.Coexist d)
    (hnew : d.gist ∉ ds.map Entry.gist) : ∀ x ∈ P.index.newest, x.1 ∉ d.keys := by
  intro x hx hk
  obtain ⟨e, he, -, hke⟩ := mem_index hv hx
  exact h.apart_of_new hd hnew he hke hk

theorem again (h : P.Lists n ds) (hd : d.gist ∈ ds.map Entry.gist) : P.Lists n (ds ++ [d]) := by
  refine { h with declared := fun e => ?_ }
  rw [h.declared, List.map_append, List.mem_append, List.map_singleton, List.mem_singleton]
  constructor
  · intro he
    exact Or.inl he
  · rintro (he | rfl)
    · exact he
    · exact hd

theorem entered (h : P.Lists n ds) (entered : List (Handle × String)) :
    { P with entered := entered }.Lists n ds :=
  ⟨h.notes, h.handles, h.apart, h.declared⟩

theorem grown (h : P.Lists n ds) {path : List Frame} {c : Content} {m : Notes} {cs : List Outline}
    (hp : P.outline = plug path (.node P.current c m cs)) (hc : c.isContainer = true)
    (hn : c.qualify (pathName "" path) = P.name) (ho : d.outer = P.name)
    (hdecl : d.content.isDeclaration = true) (hd : ∀ e ∈ ds, e.Coexist d)
    (hnew : d.gist ∉ ds.map Entry.gist) {index : Index} {entered : List (Handle × String)} :
    Lists ⟨plug path (.node P.current c m (cs ++ [.node P.next d.content d.notes []])), P.loose, index,
      entered, P.conflicts, P.next + 1⟩ n (ds ++ [d]) := by
  have hcensus := census_added (d := d.content) (m := d.notes) hp hdecl hn
  have hgist : (⟨P.next, P.name, d.content, d.notes⟩ : Entry).gist = d.gist := by
    rw [← ho]
    rfl
  refine ⟨?_, ?_, ?_, fun e => ?_⟩
  · rw [← h.notes, hp]
    exact Outline.notes_plug rfl
  · have hedit : Edit ⟨"", ""⟩ P.next true 1 (.node P.current c m cs)
        (.node P.current c m (cs ++ [.node P.next d.content d.notes []])) := .grow _ _ _ _ _ _ hc hdecl
    have hhandles := (Outline.handles_plug path _).trans (hedit.handles.append_left (pathHandles path))
    rw [← List.append_assoc] at hhandles
    have hbefore := (hp ▸ h.handles : (plug path (.node P.current c m cs)).handles.Perm _)
    refine hhandles.trans ?_
    refine (((Outline.handles_plug path _).symm.trans hbefore).append_right _).trans ?_
    rw [List.range'_one, List.cons_append]
    refine .cons _ ?_
    refine List.perm_append_comm.trans ?_
    exact (hcensus.map Entry.handle).symm
  · refine (hcensus.pairwise_iff fun hee' => List.disjoint_symm hee').mpr ?_
    refine List.pairwise_cons.mpr ⟨fun e he => ?_, h.apart⟩
    change (Entry.gist ⟨P.next, P.name, d.content, d.notes⟩).keys.Disjoint e.keys
    rw [hgist]
    exact List.disjoint_symm (h.apart_of_new hd hnew he)
  · change e ∈ (Outline.census "" _).map Entry.gist ↔ _
    rw [(hcensus.map Entry.gist).mem_iff, List.map_cons, List.mem_cons, h.declared, hgist,
      List.map_append, List.mem_append, List.map_singleton, List.mem_singleton, or_comm]

end Lists

end Draft

variable {o : Options} {P Q : Draft} {n m : Notes} {ds : List Entry} {d : Entry} {h : Handle}

theorem Draft.Lists.exists_enter {s : Scope} (hl : P.Lists n ds) (hv : P.Valid)
    (hd : ∀ e ∈ ds, e.Coexist ⟨h, P.name, .scope s, m⟩) :
    ∃ Q, Step o P (.enter s m) Q ∧ Q.Lists n (ds ++ [⟨h, P.name, .scope s, m⟩]) := by
  by_cases hm : (⟨h, P.name, .scope s, m⟩ : Entry).gist ∈ ds.map Entry.gist
  · obtain ⟨e, he, hgist⟩ := List.mem_map.mp ((hl.declared _).mpr hm)
    obtain ⟨houter, hcontent, hcomments⟩ := Entry.eq_of_gist hgist
    have hremarks : P.Remarks (s.qualify P.name) s m.comments :=
      ⟨e, he, hcontent, congrArg s.qualify houter, hcomments ▸ List.Subset.refl _⟩
    obtain ⟨k, hs⟩ := Step.again_enter (o := o) hv hl.unique (.known s m hremarks)
    exact ⟨_, hs, (hl.again hm).entered _⟩
  · obtain ⟨path, c, m', cs, hp, hc, hn, -⟩ := hv.standing.exists_current
    have hunused := hl.unused_of_new hv hd hm
    have hnone : P.scopeUnder? (s.qualify P.name) = none :=
      scopeUnder?_eq_none fun x hx heq => hunused x hx (heq ▸ List.mem_singleton_self _)
    exact ⟨_, .newScope s m path c m' cs hnone hp hc hn, hl.grown hp hc hn rfl rfl hd hm⟩

theorem Draft.Lists.exists_declare {l : Leaf} (hl : P.Lists n ds) (hv : P.Valid)
    (hk : l.keys P.name ≠ []) (hd : ∀ e ∈ ds, e.Coexist ⟨h, P.name, .leaf l, m⟩) :
    ∃ Q, Step o P (.declare l m) Q ∧ Q.Lists n (ds ++ [⟨h, P.name, .leaf l, m⟩]) := by
  have hm : (⟨h, P.name, .leaf l, m⟩ : Entry).gist ∉ ds.map Entry.gist := by
    intro hm
    obtain ⟨e, he, hgist⟩ := List.mem_map.mp hm
    rcases hd e he with ha | ⟨-, s, hs⟩
    · obtain ⟨key, rest, hkey⟩ := List.exists_cons_of_ne_nil hk
      have hmem : key ∈ l.keys P.name := hkey ▸ List.mem_cons_self
      refine ha ?_ hmem
      rw [← e.keys_gist, hgist]
      exact hmem
    · cases hs
  obtain ⟨path, c, m', cs, hp, hc, hn, -⟩ := hv.standing.exists_current
  have hnone : P.previous? (l.keys P.name) = none := previous?_eq_none (hl.unused_of_new hv hd hm)
  exact ⟨_, .newLeaf l m path c m' cs hnone hp hc hn, hl.grown hp hc hn rfl rfl hd hm⟩

/-- All that it takes to read some entries into a draft that lists others. -/
structure Reads (ds es : List Entry) : Prop where
  apart : es.Pairwise Entry.Apart
  coexist : ∀ d ∈ es, ∀ e ∈ ds, e.Coexist d

theorem Reads.append {es es' : List Entry} (hr : Reads ds (es ++ es')) :
    Reads ds es ∧ Reads (ds ++ es) es' := by
  obtain ⟨ha, ha', hcross⟩ := List.pairwise_append.mp hr.apart
  refine ⟨⟨ha, fun d hd => hr.coexist d (List.mem_append_left _ hd)⟩, ha', fun d hd e he => ?_⟩
  rcases List.mem_append.mp he with he | he
  · exact hr.coexist d (List.mem_append_right _ hd) e he
  · exact Or.inl (hcross e he d hd)

theorem exists_runs_lists_all {os : List Outline} (hv : P.Valid) (hl : P.Lists n ds)
    (hr : Reads ds (os.flatMap (Outline.census P.name)))
    (hos : ∀ x ∈ os, ∀ {P : Draft} {ds}, P.name = Q.name → P.Valid → P.Lists n ds →
      Reads ds (x.census P.name) → ∃ R, Runs o P (x.script P.name) R ∧ R.Valid ∧
        R.entered = P.entered ∧ R.Lists n (ds ++ x.census P.name)) (hname : P.name = Q.name) :
    ∃ R, Runs o P (os.flatMap (Outline.script P.name)) R ∧ R.Valid ∧ R.entered = P.entered ∧
      R.Lists n (ds ++ os.flatMap (Outline.census P.name)) := by
  induction os generalizing P ds with
  | nil => exact ⟨P, .nil P, hv, rfl, by simpa using hl⟩
  | cons x os ih =>
      rw [List.flatMap_cons] at hr
      obtain ⟨hx, hrest⟩ := hr.append
      obtain ⟨R, hrun, hvR, he, hlR⟩ := hos x List.mem_cons_self hname hv hl hx
      have hnameR : R.name = P.name := name_eq he
      rw [← hnameR] at hrest
      obtain ⟨S, hrun', hvS, he', hlS⟩ := ih hvR (hnameR ▸ hlR) hrest
        (fun y hy => hos y (List.mem_cons_of_mem _ hy)) (hnameR.trans hname)
      rw [hnameR] at hrun' hlS
      refine ⟨S, hrun.append hrun', hvS, he'.trans he, ?_⟩
      rw [List.flatMap_cons, ← List.append_assoc]
      exact hlS

/-- Declarations that can be read are listed after those that have been read before. -/
theorem exists_runs_lists {x : Outline} (hs : x.sound = true) (hk : x.Keyed P.name) (hv : P.Valid)
    (hl : P.Lists n ds) (hr : Reads ds (x.census P.name)) :
    ∃ R, Runs o P (x.script P.name) R ∧ R.Valid ∧ R.entered = P.entered ∧
      R.Lists n (ds ++ x.census P.name) := by
  induction x generalizing P ds with
  | conflict =>
      obtain ⟨c, hc, -⟩ := hk.declarations _ (Outline.mem_subtrees_self _)
      cases hc
  | node h c m cs ih =>
      rw [Outline.sound_node] at hs
      obtain ⟨c', hc', hd⟩ := hk.declarations _ (Outline.mem_subtrees_self _)
      cases hc'
      have hown : Outline.ownEntry P.name h c m = [⟨h, P.name, c, m⟩] := if_pos hd
      rw [Outline.census_node, hown] at hr ⊢
      obtain ⟨hfirst, hrest⟩ := hr.append
      have hcoexist := hfirst.coexist _ (List.mem_singleton_self _)
      cases c with
      | scope s =>
          obtain ⟨Q, hstep, hlQ⟩ := hl.exists_enter (o := o) hv hcoexist
          obtain ⟨k, hen⟩ := hstep.entered_enter
          have hname : Q.name = s.qualify P.name := by simp [Draft.name, hen]
          have hbelow : Content.qualify P.name (.scope s) = Q.name := hname.symm
          rw [hbelow] at hrest ⊢
          -- In the scope that has been entered, what is listed includes the scope itself.
          obtain ⟨R, hrun, hvR, he, hlR⟩ := exists_runs_lists_all (hstep.valid hv) hlQ hrest
            (fun x hx P ds hP hv hl hr =>
              ih x hx (hs.2 x hx) (hP ▸ hbelow ▸ hk.child hx) hv hl hr) rfl
          refine ⟨_, .scope h hstep hrun he, ?_, ?_, ?_⟩
          · exact (Step.left (o := o)).valid hvR
          · rw [he, hen]
            rfl
          · rw [← List.append_assoc]
            exact hlR.entered _
      | leaf l =>
          cases hs.1.resolve_left (by simp [Content.isContainer])
          have hkeys : l.keys P.name ≠ [] :=
            hk.keys ⟨h, P.name, .leaf l, m⟩ (by simp [Outline.ownEntry, Content.isDeclaration])
          obtain ⟨Q, hstep, hlQ⟩ := hl.exists_declare (o := o) hv hkeys hcoexist
          refine ⟨Q, .single hstep, hstep.valid hv, hstep.entered_declare, ?_⟩
          rw [List.flatMap_nil, List.append_nil]
          exact hlQ
      | tree | visibilityGroup | group => cases hd

theorem Draft.Lists.exists_remark (hl : P.Lists n ds) (hv : P.Valid) (he : P.entered = []) (o : Options)
    (comments : List String) : ∃ Q, Step o P (.remark comments) Q ∧ Q.entered = [] ∧
      Q.Lists (n.addComments comments) ds := by
  obtain ⟨hroot, hcontent⟩ := hv.root
  cases hO : P.outline with
  | conflict =>
      rw [hO] at hcontent
      cases hcontent
  | node k c m cs =>
      rw [hO] at hroot hcontent
      cases hcontent
      have hcurrent : P.current = k := by
        rw [Draft.current, he]
        exact hroot.symm
      have hname : P.name = "" := by
        rw [Draft.name, he]
        rfl
      have hs : Step o P (.remark comments) _ :=
        .remarked comments [] .tree m cs (by rw [hcurrent, hO, plug]) (by rw [hname]; rfl)
      have hnotes := hl.notes
      have hhandles := hl.handles
      have hapart := hl.apart
      have hdeclared := hl.declared
      simp only [Draft.census, hO] at hnotes hhandles hapart hdeclared
      refine ⟨_, hs, he, ?_⟩
      simp only [hcurrent, plug]
      refine ⟨congrArg (·.addComments comments) hnotes, ?_, ?_, ?_⟩
      · exact hhandles
      · exact hapart
      · exact hdeclared

theorem exists_runs_lists_tree {T : Outline} {cs : List Outline}
    (hT : T = .node Forest.root .tree m cs) (hs : T.sound = true) (hk : ∀ x ∈ cs, x.Keyed "")
    (hv : P.Valid) (he : P.entered = []) (hl : P.Lists n ds) (hr : Reads ds (T.census "")) :
    ∃ R, Runs o P (T.script "") R ∧ R.Valid ∧ R.entered = [] ∧
      R.Lists (n.addComments m.comments) (ds ++ T.census "") := by
  subst hT
  obtain ⟨Q, hstep, hen, hlQ⟩ := hl.exists_remark hv he o m.comments
  have hname (P : Draft) (he : P.entered = []) : P.name = "" := by
    rw [Draft.name, he]
    rfl
  have hcensus : (Outline.node Forest.root .tree m cs).census "" = cs.flatMap (Outline.census Q.name) := by
    rw [hname Q hen]
    simp [Outline.ownEntry, Content.isDeclaration, Content.qualify, Content.scope?]
  rw [hcensus] at hr ⊢
  rw [Outline.sound_node] at hs
  obtain ⟨R, hrun, hvR, heR, hlR⟩ := exists_runs_lists_all (hstep.valid hv) hlQ hr
    (fun x hx P ds hP hv hl hr =>
      exists_runs_lists (hs.2 x hx) (hP ▸ hname Q hen ▸ hk x hx) hv hl hr) rfl
  refine ⟨R, ?_, hvR, heR.trans hen, hlR⟩
  have hruns := Runs.cons hstep hrun
  rw [hname P he, hname Q hen] at hruns
  simpa [Outline.script] using hruns

end Merge

end Reconcile
