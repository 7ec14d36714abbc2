import Reconcile.Proofs.Merge.Correspondence
import Reconcile.Proofs.Merge.Detection

namespace Reconcile

open Outline (plug)

def Content.sameSort : Content → Content → Bool
  | .leaf _, .leaf _ | .scope _, .scope _ => true
  | _, _ => false

theorem Content.sameSort_comm (c d : Content) : c.sameSort d = d.sameSort c := by
  cases c <;> cases d <;> rfl

theorem Content.isDeclaration_of_sameSort {c d : Content} (h : c.sameSort d = true) :
    c.isDeclaration = true := by
  cases c with
  | scope | leaf => rfl
  | tree | visibilityGroup | group => cases h

theorem Entry.Grows.sameSort_eq {e e' : Entry} (h : e.Grows e') (c : Content) :
    e'.content.sameSort c = e.content.sameSort c := by
  rcases h.content with hc | ⟨l, l', hl, hl', -⟩
  · rw [hc]
  · rw [hl, hl']
    cases c <;> rfl

theorem Content.keys_eq_nil {c : Content} (hc : c.isDeclaration = false) (outer : String) :
    c.keys outer = [] := by
  cases c with
  | scope | leaf => cases hc
  | tree | visibilityGroup | group => rfl

namespace Outline

theorem primaryOfAll_eq (os : List Outline) : primaryOfAll os = os.flatMap primary := by
  induction os with
  | nil => rfl
  | cons o os ih => rw [primaryOfAll, ih, List.flatMap_cons]

@[simp] theorem primary_node (h : Handle) (c : Content) (n : Notes) (cs : List Outline) :
    (node h c n cs).primary = h :: cs.flatMap primary := by
  rw [primary, primaryOfAll_eq]

theorem exists_path_of_mem_primary {o : Outline} {h : Handle} (hh : h ∈ o.primary) :
    ∃ path c n cs, o = plug path (node h c n cs) := by
  induction o with
  | node k c n cs ih =>
      rw [primary_node, List.mem_cons, List.mem_flatMap] at hh
      rcases hh with rfl | ⟨x, hx, hh⟩
      · exact ⟨[], c, n, cs, rfl⟩
      · obtain ⟨path, d, m, ds, rfl⟩ := ih x hx hh
        obtain ⟨before, after, rfl⟩ := List.append_of_mem hx
        refine ⟨path ++ [.node k c n before after], d, m, ds, ?_⟩
        rw [plug_append]
        rfl
  | conflict k form labels n l r ihl _ =>
      obtain ⟨path, d, m, ds, rfl⟩ := ihl hh
      refine ⟨path ++ [.left k form labels n r], d, m, ds, ?_⟩
      rw [plug_append]
      rfl

theorem registrations_ownEntry (outer : String) (h : Handle) (c : Content) (n : Notes) :
    (ownEntry outer h c n).flatMap Entry.registrations = (c.keys outer).map (·, h) := by
  cases hc : c.isDeclaration with
  | true => simp [ownEntry, hc, Entry.registrations, Entry.keys]
  | false => simp [ownEntry, hc, Content.keys_eq_nil hc]

end Outline

namespace Index

theorem get_perm {i j : Index} (h : i.newest.Perm j.newest) (key : String) :
    (i.get key).Perm (j.get key) := by
  have hr : (i.recent key).Perm (j.recent key) := h.filterMap _
  exact (List.reverse_perm _).trans (hr.trans (List.reverse_perm _).symm)

theorem newest_registered (i : Index) (h : Handle) (keys : List String) (rest : List (String × Handle)) :
    rest.reverse ++ (i.insertAll keys h).newest = (keys.map (·, h) ++ rest).reverse ++ i.newest := by
  rw [Merge.Draft.newest_insertAll, List.reverse_append, List.append_assoc]

end Index

namespace Forest

variable {f : Forest} {o : Outline}

/-- What is registered from a place on is the census of that place. -/
theorem foldlM_register (path : List Frame) (x : Outline)
    (ho : (plug path x).Holds f.look none) (hd : (plug path x).handles.Nodup) (i : Index) :
    x.primary.foldlM (fun i h => i.register f h) i =
      .ok ⟨((x.census (pathName "" path)).flatMap Entry.registrations).reverse ++ i.newest⟩ := by
  -- On the way down the names of the census are those that the forest finds on its way up.
  induction x generalizing path i with
  | conflict h form labels n l r ihl _ =>
      exact ihl (.left h form labels n r :: path) ho hd i
  | node h c n cs ih =>
      have below (before after : List Outline) (hcs : cs = before ++ after) (i : Index) :
          (after.flatMap Outline.primary).foldlM (fun i h => i.register f h) i =
            .ok ⟨((after.flatMap (Outline.census (c.qualify (pathName "" path)))).flatMap
              Entry.registrations).reverse ++ i.newest⟩ := by
        induction after generalizing before i with
        | nil => rfl
        | cons x after ihs =>
            have hx := ih x (by simp [hcs]) (.node h c n before after :: path) (by rwa [hcs] at ho)
              (by rwa [hcs] at hd) i
            have hrest := ihs (before ++ [x]) (by simp [hcs])
            rw [List.flatMap_cons, List.foldlM_append, hx]
            change List.foldlM _ _ _ = _
            rw [hrest, List.flatMap_cons, List.flatMap_append, List.reverse_append, List.append_assoc]
            rfl
      have hkeys : f.keys h = .ok (c.keys (pathName "" path)) := keys_of_holds ho hd
      have hregister : i.register f h = .ok (i.insertAll (c.keys (pathName "" path)) h) := by
        simp only [Index.register, hkeys, bind, Except.bind]
        rfl
      rw [Outline.primary_node, List.foldlM_cons, hregister]
      change List.foldlM _ _ _ = _
      rw [below [] cs rfl, Index.newest_registered, Outline.census_node, List.flatMap_append,
        Outline.registrations_ownEntry]

theorem Shows.build_eq (hf : f.Shows o) :
    Index.build f = .ok ⟨((o.census "").flatMap Entry.registrations).reverse⟩ := by
  simp only [Index.build, hf.outline, bind, Except.bind]
  simpa [pathName] using foldlM_register [] o hf.holds hf.nodup {}

end Forest

namespace Merge

variable {o : Options} {s : State} {P Q : Draft} {e : Event} {trees : List Forest}

theorem State.Depicts.shows (hd : s.Depicts P) (hv : P.Valid) : s.forest.Shows P.outline :=
  ⟨hd.outline, hv.nodup_outline, hv.sound, hv.root.1, hv.root.2⟩

theorem State.Depicts.build (hd : s.Depicts P) (hv : P.Valid) : ∃ i, Index.build s.forest = .ok i ∧
    ∀ key, (s.index.get key).Perm (i.get key) := by
  refine ⟨_, (hd.shows hv).build_eq, Index.get_perm ?_⟩
  rw [hd.index]
  exact hv.index.trans (List.reverse_perm _).symm

/-- At every point of a merge that never replaces a declaration, the index of the merge and the
index of its output list the same handles under every key. -/
theorem live_index_exact (o : Options) (hk : o.keep ≠ .right) (trees : List Forest)
    (hc : ∀ t ∈ trees, t.ConflictFree) : ∃ os, readings trees = .ok os ∧
      trees.foldlM (State.merge o) {} = State.run o {} (os.flatMap Outline.events) ∧
      ∀ before after, os.flatMap Outline.events = before ++ after →
        ∃ s i, State.run o {} before = .ok s ∧ Index.build s.forest = .ok i ∧
          ∀ key, (s.index.get key).Perm (i.get key) := by
  obtain ⟨os, hos, hfree⟩ := exists_readings hc
  obtain ⟨Q, -, hr, -⟩ := exists_run hk hfree
  refine ⟨os, hos, foldlM_merge hos, fun before after hev => ?_⟩
  rw [← map_snd_scripts] at hev
  obtain ⟨es, es', hes, rfl, -⟩ := List.map_eq_append_iff.mp hev
  rw [hes] at hr
  obtain ⟨P, hb, -⟩ := hr.split
  have hv := hb.valid Draft.valid_empty
  obtain ⟨s, hs, hd⟩ := hb.depicts State.Depicts.empty Draft.valid_empty
  obtain ⟨i, hi, hperm⟩ := hd.build hv
  exact ⟨s, i, hs, hi, hperm⟩

theorem live_index_exact_sample : ∃ s i,
    [Forest.sampleModule, sampleClass].foldlM (State.merge {}) {} = .ok s ∧
      Index.build s.forest = .ok i ∧ ∀ key, (s.index.get key).Perm (i.get key) := by
  obtain ⟨os, -, hfold, h⟩ := live_index_exact {} (by decide) [.sampleModule, sampleClass] (by decide)
  obtain ⟨s, i, hs, hi, hperm⟩ := h _ [] (List.append_nil _).symm
  exact ⟨s, i, hfold.trans hs, hi, hperm⟩

theorem Step.census_cases (hs : Step o P e Q) : List.Forall₂ Entry.Grows P.census Q.census ∨
    ∃ d n, e.declaration? = some (d, n) ∧ P.meets? d = none ∧
      Q.census.Perm (⟨P.next, P.name, d, n⟩ :: P.census) := by
  have edited {path : List Frame} {x y : Outline} {j : Nat} (hp : P.outline = plug path x)
      (he : Edit o.labels P.next false j x y) :
      List.Forall₂ Entry.Grows P.census ((plug path y).census "") := Draft.census_edit hp he
  cases hs with
  | newScope s n path c m cs hu hp hc hn =>
      exact Or.inr ⟨_, _, rfl, by simp [Draft.meets?, hu], Draft.census_added hp rfl hn⟩
  | newLeaf l n path c m cs hu hp hc hn =>
      exact Or.inr ⟨_, _, rfl, hu, Draft.census_added hp rfl hn⟩
  | keptHeader | repeatedHeader | left | keptLeaf => exact Or.inl (forall₂_grows_refl _)
  | knownScope s n path h m cs hu hp => exact Or.inl (edited hp (.annotate _ _ _ _ _))
  | contestedHeader s n path q c nq before after h t m cs hu hp =>
      exact Or.inl (edited hp (.contest _ _ _ _ _ _ _ _ _ _ _))
  | unitedLeaf l n path key h l' m cs hu hp hl => exact Or.inl (edited hp (.unite _ _ _ _ _ _ hl))
  | joinedLeaf l n path key q old nq b nb before after h c m cs r nr rs hu hp =>
      exact Or.inl (edited hp (.join _ _ _ _ _ _ _ _ _))
  | opposedLeaf l n path key q d nq before after h c m cs hu hp =>
      exact Or.inl (edited hp (.oppose _ _ _ _ _ _ _ _))
  | opposedHeaders l n path key q d nq before after k old nk h c m cs r hu hp =>
      exact Or.inl (edited hp (.oppose _ _ _ _ _ _ _ _))
  | remarked comments path c m cs hp => exact Or.inl (edited hp (.annotate _ _ _ _ _))

/-- Different declarations of one sort have no key in common. -/
def Draft.Unique (P : Draft) : Prop :=
  ∀ e ∈ P.census, ∀ e' ∈ P.census, e.handle ≠ e'.handle → e.content.sameSort e'.content = true →
    e.Apart e'

theorem Draft.Valid.apart_of_meets? (hv : P.Valid) {d : Content} (hm : P.meets? d = none)
    {e : Entry} (he : e ∈ P.census) (hs : e.content.sameSort d = true) :
    e.keys.Disjoint (d.keys P.name) := by
  intro key hk hd
  have hrecent : e.handle ∈ P.index.recent key :=
    mem_recent_iff.mpr (hv.mem_newest_iff.mpr ⟨e, he, rfl, hk⟩)
  cases d with
  | tree | visibilityGroup | group => cases hd
  | leaf l =>
      have hnone := List.findSome?_eq_none_iff.mp hm key hd
      rw [Option.map_eq_none_iff, Index.last?, List.head?_eq_none_iff] at hnone
      rw [hnone] at hrecent
      cases hrecent
  | scope s =>
      cases List.mem_singleton.mp hd
      have hnone := List.find?_eq_none.mp (Option.map_eq_none_iff.mp hm) _ hrecent
      refine hnone (isScopeAt_of_mem he ?_)
      cases hc : e.content with
      | scope => rfl
      | tree | visibilityGroup | group | leaf => simp [hc, Content.sameSort] at hs

theorem Step.unique (hv : P.Valid) (hs : Step o P e Q) (hu : P.Unique) : Q.Unique := by
  rcases hs.census_cases with hg | ⟨d, n, -, hm, hperm⟩
  · have back : ∀ a ∈ Q.census, ∃ b ∈ P.census, b.Grows a := exists_of_forall₂ hg.flip
    intro a ha a' ha' hne hsort
    obtain ⟨b, hb, hba⟩ := back a ha
    obtain ⟨b', hb', hba'⟩ := back a' ha'
    rw [hba.handle, hba'.handle] at hne
    rw [hba.sameSort_eq, Content.sameSort_comm, hba'.sameSort_eq, Content.sameSort_comm] at hsort
    rw [Entry.Apart, hba.keys_eq, hba'.keys_eq]
    exact hu b hb b' hb' hne hsort
  · intro a ha a' ha' hne hsort
    rw [hperm.mem_iff, List.mem_cons] at ha ha'
    rcases ha with rfl | ha
    · rcases ha' with rfl | ha'
      · exact absurd rfl hne
      · rw [Content.sameSort_comm] at hsort
        exact List.disjoint_symm (hv.apart_of_meets? hm ha' hsort)
    · rcases ha' with rfl | ha'
      · exact hv.apart_of_meets? hm ha hsort
      · exact hu a ha a' ha' hne hsort

theorem Runs.unique {es : List (String × Event)} (hr : Runs o .empty es Q) : Q.Unique :=
  hr.invariant (I := Draft.Unique) Draft.valid_empty (fun hv hs => hs.unique hv)
    (by simp [Draft.Unique, Draft.empty, Draft.census, Outline.ownEntry, Content.isDeclaration])

/-- Among the nodes of an output that are reached through containers and left sides, no two leaves
and no two scopes have an identity key in common. -/
theorem identities_unique (o : Options) (hk : o.keep ≠ .right) (trees : List Forest)
    (hc : ∀ t ∈ trees, t.ConflictFree) : ∃ out O, mergeAll o trees = .ok out ∧
      out.forest.outline Forest.root = .ok O ∧
      ∀ h ∈ O.primary, ∃ c keys, out.forest.kind h = .ok (.plain c) ∧ out.forest.keys h = .ok keys ∧
        ∀ h' ∈ O.primary, h ≠ h' → ∀ c' keys', out.forest.kind h' = .ok (.plain c') →
          out.forest.keys h' = .ok keys' → c.sameSort c' = true → keys.Disjoint keys' := by
  obtain ⟨os, Q, out, O, h⟩ := exists_outcome hk hc
  have hu := h.runs.unique
  have found {k : Handle} (hk : k ∈ O.primary) : ∃ e : Entry, e.handle = k ∧
      out.forest.kind k = .ok (.plain e.content) ∧ out.forest.keys k = .ok e.keys ∧
      (e.content.isDeclaration = true → e ∈ Q.census) := by
    obtain ⟨path, c, n, cs, rfl⟩ := Outline.exists_path_of_mem_primary hk
    refine ⟨⟨k, pathName "" path, c, n⟩, rfl, Forest.kind_of_holds h.holds,
      Forest.keys_of_holds h.holds h.nodup, fun hd => ?_⟩
    rw [Draft.census, ← h.coalesces.census]
    exact Outline.mem_census_plug "" path hd
  refine ⟨out, O, h.merged, h.outline, fun k hk => ?_⟩
  obtain ⟨e, rfl, hkind, hkeys, hmem⟩ := found hk
  refine ⟨_, _, hkind, hkeys, ?_⟩
  intro k' hk' hne c' keys' hkind' hkeys' hsort
  obtain ⟨e', rfl, hkind₁, hkeys₁, hmem'⟩ := found hk'
  cases hkind₁.symm.trans hkind'
  cases hkeys₁.symm.trans hkeys'
  exact hu e (hmem (Content.isDeclaration_of_sameSort hsort)) e'
    (hmem' (Content.isDeclaration_of_sameSort (Content.sameSort_comm _ _ ▸ hsort))) hne hsort

theorem identities_unique_sample : ∃ out O,
    mergeAll ⟨⟨"left", "right"⟩, .left⟩ [.sampleModule, sampleClass] = .ok out ∧
      out.forest.outline Forest.root = .ok O ∧
      ∀ h ∈ O.primary, ∃ c keys, out.forest.kind h = .ok (.plain c) ∧ out.forest.keys h = .ok keys ∧
        ∀ h' ∈ O.primary, h ≠ h' → ∀ c' keys', out.forest.kind h' = .ok (.plain c') →
          out.forest.keys h' = .ok keys' → c.sameSort c' = true → keys.Disjoint keys' :=
  identities_unique ⟨⟨"left", "right"⟩, .left⟩ (by decide) [.sampleModule, sampleClass] (by decide)

end Merge

end Reconcile
