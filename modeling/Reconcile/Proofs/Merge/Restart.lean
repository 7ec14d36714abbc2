import Reconcile.Proofs.Declaration.Signatures
import Reconcile.Proofs.Merge.Accord
import Reconcile.Proofs.Merge.Copying
import Reconcile.Proofs.Merge.Mirror
import Reconcile.Proofs.Merge.Registry

namespace Reconcile

open Outline (plug)

namespace Outline

variable {path : List Frame} {x y : Outline}

/-- Apart from the root there are declarations only. -/
def Dissolved (o : Outline) : Prop :=
  ∀ x ∈ o.subtrees, x.handle = Forest.root ∨ ∃ c, x.content? = some c ∧ c.isDeclaration = true

theorem dissolved_node {h : Handle} {c : Content} {n : Notes} {cs : List Outline} :
    (node h c n cs).Dissolved ↔
      (h = Forest.root ∨ c.isDeclaration = true) ∧ ∀ o ∈ cs, o.Dissolved := by
  simp only [Dissolved, subtrees_node, List.mem_cons, List.mem_flatMap, forall_eq_or_imp, handle_node,
    content?, Option.some.injEq, exists_eq_left']
  grind

theorem dissolved_conflict {h : Handle} {form : ConflictForm} {labels : Labels} {n : Notes}
    {l r : Outline} : (conflict h form labels n l r).Dissolved ↔
      h = Forest.root ∧ l.Dissolved ∧ r.Dissolved := by
  simp only [Dissolved, subtrees_conflict, List.mem_cons, List.mem_append, forall_eq_or_imp,
    handle_conflict, content?, reduceCtorEq, false_and, exists_false, or_false]
  grind

theorem dissolved_plug (h : (plug path x).Dissolved) (hxy : x.Dissolved → y.Dissolved) :
    (plug path y).Dissolved := by
  induction path generalizing x y with
  | nil => exact hxy h
  | cons fr path ih =>
      refine ih h ?_
      cases fr with
      | node k c n before after =>
          simp only [Frame.fill, dissolved_node, List.mem_append, List.mem_cons]
          grind
      | left k form labels n r =>
          rw [Frame.fill, Frame.fill, dissolved_conflict, dissolved_conflict]
          exact And.imp_right (And.imp_left hxy)

theorem exists_notes_plug (path : List Frame)
    (h : ∃ comments, y.notes = x.notes.addComments comments) :
    ∃ comments, (plug path y).notes = (plug path x).notes.addComments comments := by
  induction path generalizing x y with
  | nil => exact h
  | cons fr path ih =>
      refine ih ⟨[], ?_⟩
      rw [Notes.addComments_nil]
      cases fr <;> rfl

end Outline

namespace Merge

variable {o : Options} {P Q : Draft} {e : Event} {es : List (String × Event)} {k : Handle}

theorem Edit.exists_notes {labels : Labels} {adds : Bool} {j : Nat} {x y : Outline}
    (h : Edit labels k adds j x y) : ∃ comments, y.notes = x.notes.addComments comments := by
  cases h with
  | annotate _ _ _ _ comments => exact ⟨comments, rfl⟩
  | unite _ _ _ _ _ comments => exact ⟨comments, rfl⟩
  | grow | contest | join | oppose => exact ⟨[], (Notes.addComments_nil _).symm⟩

theorem Edit.dissolved {labels : Labels} {adds : Bool} {j : Nat} {x y : Outline}
    (h : Edit labels k adds j x y) (hj : adds = true ∨ j = 0) (hx : x.Dissolved) : y.Dissolved := by
  cases h with
  | grow h c n cs d m _ hd =>
      rw [Outline.dissolved_node] at hx ⊢
      refine ⟨hx.1, fun o ho => ?_⟩
      rcases List.mem_append.mp ho with ho | ho
      · exact hx.2 o ho
      · cases List.mem_singleton.mp ho
        exact Outline.dissolved_node.mpr ⟨Or.inr hd, by simp⟩
  | annotate => rwa [Outline.dissolved_node] at hx ⊢
  | unite =>
      rw [Outline.dissolved_node] at hx ⊢
      exact ⟨Or.inr rfl, hx.2⟩
  | contest | join | oppose => simp at hj

/-- Nothing has been recorded: below the root there are declarations only. -/
structure Draft.Flat (P : Draft) : Prop where
  free : P.outline.conflictFree = true
  dissolved : P.outline.Dissolved
  comments : P.outline.notes.comments.Nodup
  location : P.outline.notes.location = none
  loose : P.loose = []

theorem Draft.flat_empty : empty.Flat where
  free := by simp [empty]
  dissolved := by simp [empty, Outline.dissolved_node]
  comments := List.nodup_nil
  location := rfl
  loose := rfl

theorem Step.flat (hs : Step o P e Q) (hc : Q.conflicts = P.conflicts) (hP : P.Flat) : Q.Flat := by
  have hfree := hs.conflictFree_of_silent hc hP.free
  obtain ⟨hloose, hsame | ⟨path, x, y, adds, j, hp, hq, he, hj⟩⟩ := hs.edit_of_silent hc
  · refine ⟨hfree, ?_, ?_, ?_, hloose.trans hP.loose⟩
    · exact hsame ▸ hP.dissolved
    · exact hsame ▸ hP.comments
    · exact hsame ▸ hP.location
  obtain ⟨comments, hn⟩ := Outline.exists_notes_plug path he.exists_notes
  rw [← hp, ← hq] at hn
  refine ⟨hfree, ?_, ?_, ?_, hloose.trans hP.loose⟩
  · have hd := hP.dissolved
    rw [hp] at hd
    rw [hq]
    exact Outline.dissolved_plug hd (he.dissolved hj)
  · rw [hn]
    exact nodup_union hP.comments comments
  · rw [hn]
    exact hP.location

theorem Runs.flat (hr : Runs o .empty es P) (hc : P.conflicts = []) : P.Flat :=
  hr.invariant_of_silent (I := Draft.Flat) Draft.valid_empty hc (fun _ hs hc hP => hs.flat hc hP)
    Draft.flat_empty

namespace Draft.Flat

theorem exists_root (hP : P.Flat) (hv : P.Valid) : ∃ m cs,
    P.outline = .node Forest.root .tree m cs ∧ ({} : Notes).addComments m.comments = m ∧
    ∀ x ∈ cs, x.flat = [x] ∧ x.remarks = [] := by
  obtain ⟨hroot, htree⟩ := hv.root
  have hn := hv.nodup_outline
  have hd := hP.dissolved
  have hcomments := union_nil_eq_self_iff.mpr hP.comments
  have hlocation := hP.location
  cases ho : P.outline with
  | conflict =>
      rw [ho] at htree
      cases htree
  | node h c m cs =>
      rw [ho] at hroot htree hn hd hcomments hlocation
      cases hroot
      cases htree
      refine ⟨m, cs, rfl, ?_, fun x hx => Outline.flat_of_declarations fun z hz => ?_⟩
      · obtain ⟨comments, location⟩ := m
        cases hlocation
        exact congrArg (Notes.mk · none) hcomments
      · refine ((Outline.dissolved_node.mp hd).2 x hx z hz).resolve_left fun hz₀ => ?_
        rw [Outline.handles_node, List.nodup_cons] at hn
        refine hn.1 (Outline.handles_subset hx ?_)
        rw [← Outline.map_handle_subtrees]
        exact List.mem_map.mpr ⟨z, hz, hz₀⟩

theorem declared_perm (hP : P.Flat) (hv : P.Valid) (hcomp : P.Complete) :
    (Forest.root :: P.outline.declared).Perm (List.range P.next) := by
  obtain ⟨m, cs, ho, -, hflat⟩ := hP.exists_root hv
  have hfree := hP.free
  rw [ho, Outline.conflictFree_node] at hfree
  have hcs : cs.flatMap Outline.declared = cs.flatMap Outline.handles := by
    refine List.flatMap_congr fun x hx => ?_
    rw [← Outline.handles_flat (hfree x hx), (hflat x hx).1, List.flatMap_singleton]
  have hhandles : P.handles = Forest.root :: P.outline.declared := by
    rw [handles, hP.loose, ho]
    simp [hcs, Content.isDeclaration]
  rw [← hhandles]
  exact hcomp

end Draft.Flat

/-- The handles of the declarations of a tree are given out anew, in document order. -/
def renumber (T : Outline) (h : Handle) : Handle := if h ∈ T.declared then copyOf T h else h

section

variable {T : Outline} {n : Nat} {h : Handle}
  (hT : (Forest.root :: T.declared).Perm (List.range n))
include hT

theorem mem_declared_iff : h ∈ T.declared ↔ h ≠ Forest.root ∧ h < n := by
  have hm : h ∈ Forest.root :: T.declared ↔ h < n := by rw [hT.mem_iff, List.mem_range]
  have hroot := (List.nodup_cons.mp (hT.nodup_iff.mpr List.nodup_range)).1
  rw [← hm, List.mem_cons]
  constructor
  · intro hd
    exact ⟨fun heq => hroot (heq ▸ hd), Or.inr hd⟩
  · rintro ⟨hne, hd⟩
    exact hd.resolve_left hne

theorem renumber_root : renumber T Forest.root = Forest.root :=
  if_neg fun hm => ((mem_declared_iff hT).mp hm).1 rfl

theorem renumber_fresh (hh : n ≤ h) : renumber T h = h :=
  if_neg fun hm => Nat.not_lt.mpr hh ((mem_declared_iff hT).mp hm).2

theorem copyOf_mem (hm : h ∈ T.declared) : copyOf T h ∈ T.declared := by
  have hlen := hT.length_eq
  rw [List.length_cons, List.length_range] at hlen
  have hlt := List.idxOf_lt_length_iff.mpr hm
  rw [mem_declared_iff hT, copyOf, ← hlen, Nat.add_comm]
  exact ⟨Nat.succ_ne_zero _, Nat.succ_lt_succ hlt⟩

theorem renumber_injective : (renumber T).Injective := by
  intro h h' heq
  unfold renumber at heq
  split at heq
  · next hm =>
      split at heq
      · exact copyOf_inj hm heq
      · next hm' => exact absurd (heq ▸ copyOf_mem hT hm) hm'
  · next hm =>
      split at heq
      · next hm' => exact absurd (heq ▸ copyOf_mem hT hm') hm
      · exact heq

end

theorem eq_of_perm_of_all_eq {α : Type} {xs ys : List α} (hp : xs.Perm ys)
    (h : ∀ x ∈ ys, ∀ y ∈ ys, x = y) : xs = ys := by
  cases ys with
  | nil => exact hp.eq_nil
  | cons y ys =>
      have hy := List.eq_replicate_of_mem fun z hz => h z hz y List.mem_cons_self
      rw [hy] at hp ⊢
      exact List.perm_replicate.mp hp

theorem Draft.recent_rename {P' : Draft} {φ : Handle → Handle} (hv : P.Valid) (hv' : P'.Valid)
    (ha : P.census.Pairwise Entry.Apart) (ho : P'.outline = P.outline.rename φ) (key : String) :
    P'.index.recent key = (P.index.recent key).map φ := by
  have hregistrations : P'.census.flatMap Entry.registrations =
      (P.census.flatMap Entry.registrations).map fun x => (x.1, φ x.2) := by
    rw [census, ho, Outline.census_rename, List.flatMap_map, List.map_flatMap]
    refine List.flatMap_congr fun e _ => ?_
    rw [Entry.registrations, Entry.registrations, List.map_map]
    rfl
  have hnewest : P'.index.newest.Perm (P.index.newest.map fun x => (x.1, φ x.2)) := by
    refine hv'.index.trans ?_
    rw [hregistrations]
    exact (hv.index.map _).symm
  refine eq_of_perm_of_all_eq ?_ ?_
  · rw [← recent_map]
    exact hnewest.filterMap _
  · have hsole {h : Handle} (hm : h ∈ P.index.recent key) : ∃ e, P.Sole key e ∧ e.handle = h := by
      obtain ⟨e, he, hh, hk⟩ := hv.mem_newest_iff.mp (mem_recent hm)
      exact ⟨e, sole_of_apart ha he hk, hh⟩
    intro k hk k' hk'
    obtain ⟨h, hm, rfl⟩ := List.mem_map.mp hk
    obtain ⟨h', hm', rfl⟩ := List.mem_map.mp hk'
    obtain ⟨e, he, rfl⟩ := hsole hm
    obtain ⟨e', he', rfl⟩ := hsole hm'
    rw [he.unique e' he'.mem he'.holds]

theorem Draft.Flat.outline_of_copies {P' : Draft} (hP : P.Flat) (hv : P.Valid) (hcomp : P.Complete)
    (h : Copies o (copyOf P.outline) [] .tree {} [] [P.outline] .empty P') :
    P'.outline = P.outline.rename (renumber P.outline) := by
  obtain ⟨m, cs, ho, hm, hcs⟩ := hP.exists_root hv
  have hremarks : P.outline.remarks = m.comments := by
    rw [ho, Outline.remarks_container rfl, List.flatMap_eq_nil_iff.mpr fun x hx => (hcs x hx).2,
      List.append_nil]
  have hflat : P.outline.flat = cs := by
    rw [ho, Outline.flat_container rfl, List.flatMap_congr fun x hx => (hcs x hx).1,
      List.flatMap_singleton']
  have hdeclared : ∀ x ∈ cs, x.handles ⊆ P.outline.declared := by
    intro x hx
    rw [← Outline.handles_flat hP.free, hflat]
    exact Outline.handles_subset hx
  have hrename : cs.map (Outline.rename (copyOf P.outline)) =
      cs.map (Outline.rename (renumber P.outline)) := by
    refine List.map_congr_left fun x hx => Outline.rename_congr fun k hk => ?_
    exact (if_pos (hdeclared x hx hk)).symm
  have hself := congrArg (Outline.rename (renumber P.outline)) ho
  rw [Outline.rename_node, renumber_root (hP.declared_perm hv hcomp), ← hrename] at hself
  rw [h.outline, List.flatMap_singleton, List.flatMap_singleton, hremarks, hflat, hm, hself]
  rfl

/-- What a silent run has built is built again from its outline, under other handles. -/
theorem Runs.exists_restart (hr : Runs o .empty es P) (hc : P.conflicts = []) (hen : P.entered = [])
    (ha : P.census.Pairwise Entry.Apart) : ∃ P', Runs o .empty (P.outline.script "") P' ∧
      P.Mirrors (renumber P.outline) P' := by
  have hv := hr.valid Draft.valid_empty
  have hcomp := hr.complete Draft.complete_empty
  have hflat := hr.flat hc
  have hperm := hflat.declared_perm hv hcomp
  obtain ⟨P', h⟩ := exists_first_copy o hv.sound hflat.free hv.nodup_outline ha
  have houtline := hflat.outline_of_copies hv hcomp h
  have hrun := h.runs
  rw [List.flatMap_singleton] at hrun
  refine ⟨P', hrun, renumber_injective hperm, renumber_root hperm, fun k => renumber_fresh hperm,
    houtline, Draft.recent_rename hv (hrun.valid Draft.valid_empty) ha houtline, ?_, ?_, ?_⟩
  · rw [h.entered, hen]
    rfl
  · rw [h.conflicts, hc]
    rfl
  · have hlen := hperm.length_eq
    rw [List.length_cons, List.length_range] at hlen
    rw [h.next, List.flatMap_singleton, ← hlen, Nat.add_comm]
    rfl

theorem Draft.Unique.pairwise_apart {f : Forest} (hu : P.Unique) (hs : f.Shows P.outline)
    (ha : f.SortsApart) : P.census.Pairwise Entry.Apart := by
  refine (Outline.nodup_census "" hs.nodup).imp_of_mem ?_
  intro d d' hd hd' hne
  have hh : d.handle ≠ d'.handle := fun heq => hne (Outline.census_unique hs.nodup hd hd' heq)
  obtain ⟨l, hl⟩ | ⟨t, ht⟩ := Outline.leaf_or_scope_of_census hd
  · obtain ⟨l', hl'⟩ | ⟨t', ht'⟩ := Outline.leaf_or_scope_of_census hd'
    · exact hu d hd d' hd' hh (by rw [hl, hl']; rfl)
    · exact hs.apart_of_sorts ha hd hd' hl ht'
  · obtain ⟨l', hl'⟩ | ⟨t', ht'⟩ := Outline.leaf_or_scope_of_census hd'
    · exact List.disjoint_symm (hs.apart_of_sorts ha hd' hd hl' ht)
    · exact hu d hd d' hd' hh (by rw [ht, ht']; rfl)

/-- What has been merged without a conflict can be merged as one tree with the rest: the output is
the same up to handles, and conflicts are found under the same keys. -/
theorem folding_restarts (o : Options) (hk : o.keep ≠ .right) (ts us : List Forest)
    (hts : ∀ t ∈ ts, t.ConflictFree) (hus : ∀ u ∈ us, u.ConflictFree) :
    ∃ out, mergeAll o ts = .ok out ∧ (out.conflicts = [] → out.forest.SortsApart →
      ∃ out₁ out₂ O₁ O₂,
        mergeAll o (out.forest :: us) = .ok out₁ ∧ mergeAll o (ts ++ us) = .ok out₂ ∧
        out₁.forest.outline Forest.root = .ok O₁ ∧ out₂.forest.outline Forest.root = .ok O₂ ∧
        O₁.same O₂ = true ∧ out₁.conflicts.map (·.key) = out₂.conflicts.map (·.key)) := by
  obtain ⟨os, hos, hfree⟩ := exists_readings hts
  obtain ⟨xs, hxs, hfree'⟩ := exists_readings hus
  obtain ⟨P, hr, hv, hen⟩ := exists_runs_list hk hfree Draft.valid_empty
  obtain ⟨Q, hr', -, -⟩ := exists_runs_list hk hfree' hv
  obtain ⟨out, O, h⟩ := hr.exists_outcome hos hfree
  refine ⟨out, h.merged, fun hsilent hsorts => ?_⟩
  have hc : P.conflicts = [] := h.conflicts.symm.trans hsilent
  cases h.coalesces.plain (hr.flat hc).free
  have hshows : out.forest.Shows P.outline := ⟨h.holds, h.nodup, hv.sound, h.root.1, h.root.2⟩
  obtain ⟨P', hP', hm⟩ := hr.exists_restart hc hen (hr.unique.pairwise_apart hshows hsorts)
  have hname : P.name = "" := name_eq hen
  rw [hname] at hr'
  obtain ⟨Q', hQ', hmQ⟩ := hr'.mirror hm
  have hrun : Runs o .empty ((os ++ xs).flatMap (Outline.script "")) Q := by
    rw [List.flatMap_append]
    exact hr.append hr'
  have hrun' : Runs o .empty ((P.outline :: xs).flatMap (Outline.script "")) Q' := by
    rw [List.flatMap_cons]
    exact hP'.append hQ'
  have hfree₁ : ∀ x ∈ P.outline :: xs, x.conflictFree = true :=
    List.forall_mem_cons.mpr ⟨(hr.flat hc).free, hfree'⟩
  have hfree₂ : ∀ x ∈ os ++ xs, x.conflictFree = true :=
    List.forall_mem_append.mpr ⟨hfree, hfree'⟩
  obtain ⟨out₁, O₁, h₁⟩ := hrun'.exists_outcome (readings_cons hshows.outline hxs) hfree₁
  obtain ⟨out₂, O₂, h₂⟩ := hrun.exists_outcome (readings_append hos hxs) hfree₂
  refine ⟨out₁, out₂, O₁, O₂, h₁.merged, h₂.merged, h₁.outline, h₂.outline, ?_, ?_⟩
  · rw [h₁.coalesced, h₂.coalesced, hmQ.outline, hmQ.next, ← Outline.rename_coalescedWithin]
    exact Outline.same_rename _
  · rw [h₁.conflicts, h₂.conflicts, hmQ.keys]

theorem folding_restarts_sample : ∃ out out₁ out₂ O₁ O₂,
    mergeAll {} [.sampleModule, .ofConstant "B" "1"] = .ok out ∧ out.conflicts = [] ∧
      mergeAll {} [out.forest, sampleClass] = .ok out₁ ∧
      mergeAll {} [.sampleModule, .ofConstant "B" "1", sampleClass] = .ok out₂ ∧
      out₁.forest.outline Forest.root = .ok O₁ ∧ out₂.forest.outline Forest.root = .ok O₂ ∧
      O₁.same O₂ = true ∧ out₁.conflicts.map (·.key) = out₂.conflicts.map (·.key) := by
  obtain ⟨out, hout, h⟩ := folding_restarts {} (by decide) [.sampleModule, .ofConstant "B" "1"]
    [sampleClass] (by decide) (by decide)
  have hsilent : out.conflicts = [] ∧ out.forest.SortsApart := by
    obtain ⟨out', hout', hc, hs⟩ : ∃ out',
        mergeAll {} [.sampleModule, .ofConstant "B" "1"] = .ok out' ∧ out'.conflicts = [] ∧
          out'.forest.SortsApart := ⟨_, rfl, rfl, by decide⟩
    cases hout.symm.trans hout'
    exact ⟨hc, hs⟩
  obtain ⟨out₁, out₂, O₁, O₂, h⟩ := h hsilent.1 hsilent.2
  exact ⟨out, out₁, out₂, O₁, O₂, hout, hsilent.1, h⟩

end Merge

end Reconcile
