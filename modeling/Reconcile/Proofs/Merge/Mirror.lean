import Reconcile.Proofs.Forest.Amend
import Reconcile.Proofs.Merge.Coalescing
import Reconcile.Proofs.Merge.Holder
import Reconcile.Proofs.Merge.Run

namespace Reconcile

open Outline (plug)

variable {φ : Handle → Handle}

namespace Frame

def rename (φ : Handle → Handle) : Frame → Frame
  | node h c n before after =>
      node (φ h) c n (before.map (Outline.rename φ)) (after.map (Outline.rename φ))
  | left h form labels n r => left (φ h) form labels n (r.rename φ)

theorem rename_fill (fr : Frame) (x : Outline) :
    (fr.fill x).rename φ = (fr.rename φ).fill (x.rename φ) := by
  cases fr with
  | node => simp [fill, rename]
  | left => rfl

theorem qualify_rename (outer : String) (fr : Frame) :
    (fr.rename φ).qualify outer = fr.qualify outer := by
  cases fr <;> rfl

end Frame

theorem pathName_rename (outer : String) (path : List Frame) :
    pathName outer (path.map (Frame.rename φ)) = pathName outer path := by
  simp only [pathName, List.foldr_map, Frame.qualify_rename]

namespace Outline

theorem rename_plug (path : List Frame) (x : Outline) :
    (plug path x).rename φ = plug (path.map (Frame.rename φ)) (x.rename φ) := by
  induction path generalizing x with
  | nil => rfl
  | cons fr path ih =>
      rw [plug, ih, Frame.rename_fill]
      rfl

theorem children_rename (x : Outline) : (x.rename φ).children = x.children.map (rename φ) := by
  cases x with
  | node => rw [rename_node, children, children]
  | conflict => rfl

theorem rename_withMore (x : Outline) (more : List Outline) :
    (x.withMore more).rename φ = (x.rename φ).withMore (more.map (rename φ)) := by
  cases x with
  | node => simp [withMore]
  | conflict => rfl

theorem unite?_rename (x y : Outline) :
    (x.rename φ).unite? (y.rename φ) = (x.unite? y).map (rename φ) := by
  cases x with
  | node => simp [unite?]
  | conflict h form labels n l r =>
      cases y with
      | node => cases form <;> simp [unite?]
      | conflict h' form' labels' n' l' r' =>
          cases form <;> cases form' <;>
            simp [unite?, rename_withMore, children_rename]

theorem foldRuns_rename (x : Outline) (ys : List Outline) :
    foldRuns (x.rename φ) (ys.map (rename φ)) = (foldRuns x ys).map (rename φ) := by
  induction ys generalizing x with
  | nil => rfl
  | cons y ys ih =>
      rw [List.map_cons, foldRuns, unite?_rename, foldRuns]
      cases x.unite? y with
      | none => simp [ih]
      | some z => exact ih z

theorem runs_rename (xs : List Outline) : runs (xs.map (rename φ)) = (runs xs).map (rename φ) := by
  cases xs with
  | nil => rfl
  | cons x xs => exact foldRuns_rename x xs

theorem rename_coalescedWithin (depth : Nat) (x : Outline) :
    (x.coalescedWithin depth).rename φ = (x.rename φ).coalescedWithin depth := by
  induction depth generalizing x with
  | zero => cases x <;> rfl
  | succ depth ih =>
      have inside (y : Outline) : (y.descend (coalescedWithin depth)).rename φ =
          (y.rename φ).descend (coalescedWithin depth) := by
        cases y with
        | node h c n cs =>
            rw [rename_node, descend, descend, ← rename_node]
            split
            · exact ih _
            · rfl
        | conflict h form labels n l r =>
            rw [descend, rename_conflict, rename_conflict, descend, ih, ih]
      cases x with
      | conflict => rfl
      | node h c n cs =>
          rw [rename_node, coalescedWithin, coalescedWithin, rename_node, runs_rename, List.map_map,
            List.map_map]
          simp only [Function.comp_def, inside]

end Outline

namespace Merge

/-- `P'` is `P` with other handles. Handles that have not been given out are the same in both. -/
structure Draft.Mirrors (φ : Handle → Handle) (P P' : Draft) : Prop where
  injective : φ.Injective
  root : φ Forest.root = Forest.root
  fresh : ∀ h, P.next ≤ h → φ h = h
  outline : P'.outline = P.outline.rename φ
  recent : ∀ key, P'.index.recent key = (P.index.recent key).map φ
  entered : P'.entered = P.entered.map fun x => (φ x.1, x.2)
  keys : P'.conflicts.map (·.key) = P.conflicts.map (·.key)
  next : P'.next = P.next

open Draft (onSide)

variable {o : Options} {P P' Q : Draft} {e : Event} {es : List (String × Event)}

theorem onSide_rename (path : List Frame) :
    onSide (path.map (Frame.rename φ)) = onSide path := by
  cases path with
  | nil => rfl
  | cons fr path =>
      cases fr with
      | node => rfl
      | left _ form => cases form <;> rfl

namespace Draft.Mirrors

variable {path : List Frame} {x : Outline} (hm : P.Mirrors φ P')
include hm

theorem name : P'.name = P.name := by
  rw [Draft.name, Draft.name, hm.entered, List.head?_map, Option.map_map]
  rfl

theorem current : P'.current = φ P.current := by
  rw [Draft.current, Draft.current, hm.entered, List.head?_map, Option.map_map]
  cases P.entered.head? with
  | none => exact hm.root.symm
  | some x => rfl

theorem isScopeAt (h : Handle) : P'.isScopeAt (φ h) = P.isScopeAt h := by
  rw [Draft.isScopeAt, Draft.isScopeAt, Draft.census, hm.outline, Outline.census_rename,
    List.any_map]
  simp only [Function.comp_def, hm.injective.eq_iff]
  rfl

theorem scopeUnder? (key : String) : P'.scopeUnder? key = (P.scopeUnder? key).map φ := by
  have hs : P'.isScopeAt ∘ φ = P.isScopeAt := funext hm.isScopeAt
  rw [Draft.scopeUnder?, Draft.scopeUnder?, hm.recent, List.find?_map, hs]

theorem previous? (keys : List String) :
    P'.previous? keys = (P.previous? keys).map fun x => (x.1, φ x.2) := by
  rw [Draft.previous?, Draft.previous?, List.map_findSome?]
  congr
  funext key
  rw [Index.last?, hm.recent, List.head?_map, Option.map_map, Function.comp_apply, Option.map_map]
  rfl

theorem scope {s : Scope} {r : Option Handle} (hu : P.scopeUnder? (s.qualify P.name) = r) :
    P'.scopeUnder? (s.qualify P'.name) = r.map φ := by
  rw [hm.name, hm.scopeUnder?, hu]

theorem leaf {l : Leaf} {r : Option (String × Handle)} (hu : P.previous? (l.keys P.name) = r) :
    P'.previous? (l.keys P'.name) = r.map fun x => (x.1, φ x.2) := by
  rw [hm.name, hm.previous?, hu]

theorem filled {c : Content} (hn : c.qualify (pathName "" path) = P.name) :
    c.qualify (pathName "" (path.map (Frame.rename φ))) = P'.name := by
  rw [pathName_rename, hn, hm.name]

theorem place (hp : P.outline = plug path x) :
    P'.outline = plug (path.map (Frame.rename φ)) (x.rename φ) := by
  rw [hm.outline, hp, Outline.rename_plug]

theorem current_place {c : Content} {m : Notes} {cs : List Outline}
    (hp : P.outline = plug path (.node P.current c m cs)) : P'.outline =
      plug (path.map (Frame.rename φ)) (.node P'.current c m (cs.map (Outline.rename φ))) := by
  rw [hm.place hp, Outline.rename_node, hm.current]

theorem next_add (j : Nat) : φ (P.next + j) = P'.next + j := by
  rw [hm.fresh _ (Nat.le_add_right _ _), hm.next]

theorem recent_insertAll (keys : List String) (key : String) :
    (P'.index.insertAll keys P'.next).recent key =
      ((P.index.insertAll keys P.next).recent key).map φ := by
  rw [Draft.recent_insertAll, Draft.recent_insertAll, hm.recent, List.map_append,
    List.map_replicate]
  exact congrArg (List.replicate (keys.count key) · ++ _) (hm.next_add 0).symm

theorem edited {y y' : Outline} (j : Nat) {index index' : Index} {loose loose' : List Outline}
    {entered entered' : List (Handle × String)} {conflicts conflicts' : List Conflict}
    (hy : y.rename φ = y') (hi : ∀ key, index'.recent key = (index.recent key).map φ)
    (he : entered' = entered.map fun x => (φ x.1, x.2))
    (hc : conflicts'.map (·.key) = conflicts.map (·.key)) :
    Draft.Mirrors φ ⟨plug path y, loose, index, entered, conflicts, P.next + j⟩
      ⟨plug (path.map (Frame.rename φ)) y', loose', index', entered', conflicts', P'.next + j⟩ where
  injective := hm.injective
  root := hm.root
  fresh := fun h hh => hm.fresh h (Nat.le_trans (Nat.le_add_right _ _) hh)
  outline := by rw [Outline.rename_plug, hy]
  recent := hi
  entered := he
  keys := hc
  next := by rw [hm.next]

theorem keys_record (key : String) (h k h' k' : Handle) :
    (P'.record o key h' k').map (·.key) = (P.record o key h k).map (·.key) := by
  simp [Draft.record, hm.keys]

theorem entered_enter (s : Scope) {h h' : Handle} (hh : φ h = h') :
    (h', s.qualify P'.name) :: P'.entered =
      ((h, s.qualify P.name) :: P.entered).map fun x => (φ x.1, x.2) := by
  rw [List.map_cons, hm.name, hm.entered, hh]

end Draft.Mirrors

/-- Whatever a draft does, its mirror image does the same. -/
theorem Step.mirror (hm : P.Mirrors φ P') (hs : Step o P e Q) :
    ∃ Q', Step o P' e Q' ∧ Q.Mirrors φ Q' := by
  have hnext := hm.next_add
  have hnext₀ : φ P.next = P'.next := hnext 0
  cases hs with
  | newScope s n path c m cs hu hp hc hn =>
      refine ⟨_, .newScope s n _ c m _ (hm.scope hu) (hm.current_place hp) hc (hm.filled hn), ?_⟩
      refine hm.edited 1 ?_ ?_ (hm.entered_enter s hnext₀) hm.keys
      · simp [hm.current, hnext₀]
      · rw [hm.name]
        exact hm.recent_insertAll _
  | knownScope s n path h m cs hu hp =>
      have hp' := hm.place hp
      rw [Outline.rename_node] at hp'
      refine ⟨_, .knownScope s n _ (φ h) m _ (hm.scope hu) hp', ?_⟩
      exact hm.edited 0 (by simp) hm.recent (hm.entered_enter s rfl) hm.keys
  | keptHeader s n path h t m cs hu hp hne hk =>
      have hp' := hm.place hp
      rw [Outline.rename_node] at hp'
      refine ⟨_, .keptHeader s n _ (φ h) t m _ (hm.scope hu) hp' hne hk, ?_⟩
      exact { hm with entered := hm.entered_enter s rfl }
  | contestedHeader s n path q c nq before after h t m cs hu hp hne hk =>
      have hp' := hm.place hp
      simp only [Outline.rename_node, List.map_append, List.map_cons] at hp'
      refine ⟨_, .contestedHeader s n _ (φ q) c nq _ _ (φ h) t m _ (hm.scope hu) hp' hne hk, ?_⟩
      refine hm.edited 2 ?_ hm.recent (hm.entered_enter s rfl) ?_
      · simp [hnext, hnext₀]
      · rw [hm.name]
        exact hm.keys_record ..
  | repeatedHeader s n path q old nq r h t m cs hu hp hne hk =>
      have hp' := hm.place hp
      simp only [Outline.rename_node, Outline.rename_conflict] at hp'
      refine ⟨_, .repeatedHeader s n _ (φ q) old nq _ (φ h) t m _ (hm.scope hu) hp' hne hk, ?_⟩
      refine { hm with entered := hm.entered_enter s rfl, fresh := ?_, keys := ?_, next := ?_ }
      · exact fun k hk => hm.fresh k (Nat.le_of_succ_le hk)
      · rw [hm.name]
        exact hm.keys_record ..
      · rw [hm.next]
  | left => exact ⟨_, .left, { hm with entered := by rw [hm.entered, List.map_tail] }⟩
  | newLeaf l n path c m cs hu hp hc hn =>
      refine ⟨_, .newLeaf l n _ c m _ (hm.leaf hu) (hm.current_place hp) hc (hm.filled hn), ?_⟩
      refine hm.edited 1 ?_ ?_ hm.entered hm.keys
      · simp [hm.current, hnext₀]
      · rw [hm.name]
        exact hm.recent_insertAll _
  | unitedLeaf l n path key h l' m cs hu hp hl =>
      have hp' := hm.place hp
      rw [Outline.rename_node] at hp'
      refine ⟨_, .unitedLeaf l n _ key (φ h) l' m _ (hm.leaf hu) hp' hl, ?_⟩
      exact hm.edited 0 (by simp) hm.recent hm.entered hm.keys
  | keptLeaf l n path key h c m cs hu hp hl hk =>
      have hp' := hm.place hp
      rw [Outline.rename_node] at hp'
      exact ⟨_, .keptLeaf l n _ key (φ h) c m _ (hm.leaf hu) hp' hl hk, hm⟩
  | joinedLeaf l n path key q old nq b nb before after h c m cs r nr rs hu hp hl hk =>
      have hp' := hm.place hp
      simp only [Outline.rename_conflict, Outline.rename_node, List.map_append,
        List.map_cons] at hp'
      refine ⟨_, .joinedLeaf l n _ key (φ q) old nq (φ b) nb _ _ (φ h) c m _ (φ r) nr _ (hm.leaf hu)
        hp' hl hk, ?_⟩
      exact hm.edited 1 (by simp [hnext₀]) hm.recent hm.entered (hm.keys_record ..)
  | opposedLeaf l n path key q d nq before after h c m cs hu hp hside hl hk =>
      have hp' := hm.place hp
      simp only [Outline.rename_node, List.map_append, List.map_cons] at hp'
      refine ⟨_, .opposedLeaf l n _ key (φ q) d nq _ _ (φ h) c m _ (hm.leaf hu) hp'
        (by rw [onSide_rename, hside]) hl hk, ?_⟩
      exact hm.edited 4 (by simp [hnext, hnext₀]) hm.recent hm.entered (hm.keys_record ..)
  | opposedHeaders l n path key q d nq before after k old nk h c m cs r hu hp hl hk =>
      have hp' := hm.place hp
      simp only [Outline.rename_conflict, Outline.rename_node, List.map_append,
        List.map_cons] at hp'
      refine ⟨_, .opposedHeaders l n _ key (φ q) d nq _ _ (φ k) old nk (φ h) c m _ _ (hm.leaf hu) hp'
        hl hk, ?_⟩
      exact hm.edited 4 (by simp [hnext, hnext₀]) hm.recent hm.entered (hm.keys_record ..)
  | remarked comments path c m cs hp hn =>
      refine ⟨_, .remarked comments _ c m _ (hm.current_place hp) (hm.filled hn), ?_⟩
      exact hm.edited 0 (by simp [hm.current]) hm.recent hm.entered hm.keys

theorem Runs.mirror (hm : P.Mirrors φ P') (hr : Runs o P es Q) :
    ∃ Q', Runs o P' es Q' ∧ Q.Mirrors φ Q' := by
  induction hr generalizing P' with
  | nil => exact ⟨P', .nil P', hm⟩
  | cons hs _ ih =>
      obtain ⟨R', hs', hR⟩ := hs.mirror hm
      obtain ⟨Q', hr', hQ⟩ := ih hR
      refine ⟨Q', ?_, hQ⟩
      rw [← hm.name]
      exact .cons hs' hr'

end Merge

end Reconcile
