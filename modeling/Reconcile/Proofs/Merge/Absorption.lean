import Reconcile.Proofs.Merge.Settlement

namespace Reconcile

namespace Forest

/-- Every leaf that can be reached from the root has an identity key. -/
def Identified (f : Forest) : Prop :=
  ∃ o, f.outline root = .ok o ∧ ∀ h ∈ o.handles, ∀ k keys, f.kind h = .ok k → k.isLeaf = true →
    f.keys h = .ok keys → keys ≠ []

instance (f : Forest) : Decidable f.Identified :=
  decidable_of_iff (∃ o ∈ (f.outline root).toOption, ∀ h ∈ o.handles, ∀ k ∈ (f.kind h).toOption,
    k.isLeaf = true → ∀ keys ∈ (f.keys h).toOption, keys ≠ [])
    (by simp only [mem_toOption, Identified]; grind)

theorem Shows.keys_ne_nil {f : Forest} {o : Outline} {e : Entry} {l : Leaf} (h : f.Shows o)
    (hi : f.Identified) (he : e ∈ o.census "") (hc : e.content = .leaf l) : e.keys ≠ [] := by
  obtain ⟨o', ho', hi⟩ := hi
  cases h.outline.symm.trans ho'
  refine hi _ (Outline.handle_mem_of_census he) _ _ (h.kind_of_mem he) ?_ (h.keys_of_mem he)
  rw [hc]
  rfl

end Forest

namespace Merge

variable {o : Options} {P Q : Draft} {es : List (String × Event)}

theorem exists_entry_of_script {x : Outline} (hs : x.sound = true) (hc : x.conflictFree = true)
    {y : String × Event} (hy : y ∈ x.script "") {c : Content} {m : Notes}
    (hd : y.2.declaration? = some (c, m)) :
    ∃ e ∈ x.census "", e.outer = y.1 ∧ e.content = c ∧ e.notes = m := by
  have hm : ⟨Forest.root, y.1, c, m⟩ ∈ arrivals (x.script "") :=
    List.mem_filterMap.mpr ⟨y, hy, by rw [hd]; rfl⟩
  rw [Outline.arrivals_script hs hc, List.mem_map] at hm
  obtain ⟨e, he, heq⟩ := hm
  rw [Entry.mk.injEq] at heq
  exact ⟨e, he, heq.2⟩

theorem Draft.spares_of_left (hk : o.keep = .left) {name : String} {l : Leaf} {y : String × Event}
    (hn : isPlain name = true) (hy : ∀ c m, y.2.declaration? = some (c, m) → isPlain y.1 = true) :
    Spares o name l y := by
  intro c m hd
  by_cases hdis : (c.keys y.1).Disjoint (l.keys name)
  · exact Or.inl hdis
  · refine Or.inr ⟨hk, fun hcomp => ?_⟩
    simp only [List.Disjoint, not_forall] at hdis
    obtain ⟨key, hkey, hkey', -⟩ := hdis
    exact Content.keys_eq_of_compatible hcomp (hy c m hd) hn hkey hkey'

theorem Runs.settles_of_left (hk : o.keep = .left) (hr : Runs o P es Q) (hv : P.Valid)
    (hplain : ∀ y ∈ es, ∀ c m, y.2.declaration? = some (c, m) → isPlain y.1 = true)
    (hkeys : ∀ y ∈ es, ∀ l m, y.2 = .declare l m → l.keys y.1 ≠ []) :
    ∀ y ∈ es, Q.Settled o y.1 y.2 := by
  rintro ⟨name, e⟩ hy
  obtain ⟨before, after, rfl⟩ := List.append_of_mem hy
  obtain ⟨R, R', rfl, hbefore, hs, hafter, -⟩ := hr.exists_at
  have hR := hbefore.valid hv
  have hsettled := hs.settles hR (hs.conflicts_of_left hk) (hkeys _ hy)
    fun _ _ _ _ _ _ _ => Or.inl hk
  refine hafter.keepsSettled (hs.valid hR) hsettled fun l m heq z hz => ?_
  refine Draft.spares_of_left hk (hplain _ hy _ _ (by rw [heq]; rfl)) ?_
  exact hplain z (List.mem_append_right _ (List.mem_cons_of_mem _ hz))

theorem exists_entry_of_scripts {trees : List Forest} {os : List Outline}
    (h : List.Forall₂ Forest.Shows trees os) (hfree : ∀ x ∈ os, x.conflictFree = true)
    {y : String × Event} (hy : y ∈ os.flatMap (Outline.script "")) {c : Content} {m : Notes}
    (hd : y.2.declaration? = some (c, m)) :
    ∃ t ∈ trees, ∃ x e, t.Shows x ∧ e ∈ x.census "" ∧ e.outer = y.1 ∧ e.content = c := by
  obtain ⟨x, hx, hy⟩ := List.mem_flatMap.mp hy
  obtain ⟨t, ht, hshows⟩ := exists_of_forall₂ h.flip x hx
  obtain ⟨e, he, houter, hcontent, -⟩ := exists_entry_of_script hshows.sound (hfree x hx) hy hd
  exact ⟨t, ht, x, e, hshows, he, houter, hcontent⟩

/-- A merge that keeps the left version does not change if a tree that it has read comes again. -/
theorem merged_tree_absorbed (o : Options) (hk : o.keep = .left) (trees : List Forest)
    (hw : ∀ t ∈ trees, t.WellFormed) (hc : ∀ t ∈ trees, t.ConflictFree)
    (hi : ∀ t ∈ trees, t.Identified) (hp : ∀ t ∈ trees, t.PlainlyNamed) (t : Forest)
    (ht : t ∈ trees) : ∃ out out', mergeAll o trees = .ok out ∧
      mergeAll o (trees ++ [t]) = .ok out' ∧ out'.forest = out.forest := by
  obtain ⟨os, hos, hfree⟩ := exists_readings hc
  have hshows := forall₂_shows hos hw
  obtain ⟨Q, hr, hv, hen⟩ := exists_runs_list (o := o) (by simp [hk]) hfree Draft.valid_empty
  have hname : Q.name = "" := name_eq hen
  have hsettled := hr.settles_of_left hk Draft.valid_empty
    (fun y hy c m hdecl => by
      obtain ⟨u, hu, x, e, h, he, houter, -⟩ := exists_entry_of_scripts hshows hfree hy hdecl
      rw [← houter]
      exact h.isPlain_outer (hp u hu) he)
    (fun y hy l m heq => by
      obtain ⟨u, hu, x, e, h, he, houter, hcontent⟩ :=
        exists_entry_of_scripts (c := .leaf l) (m := m) hshows hfree hy (by rw [heq]; rfl)
      have hne := h.keys_ne_nil (hi u hu) he hcontent
      rwa [Entry.keys, hcontent, houter] at hne)
  obtain ⟨x, hx, htx⟩ := exists_of_forall₂ hshows t ht
  have hagain : Runs o Q (x.script "") Q := by
    rw [← hname]
    refine .again_settled hv hr.unique fun y hy => ?_
    rw [hname] at hy
    exact hsettled y (List.mem_flatMap.mpr ⟨x, hx, hy⟩)
  obtain ⟨out, O, hout⟩ := hr.exists_outcome hos hfree
  exact ⟨out, out, hout.merged, (hr.mergeAll_append hos htx.outline hagain).trans hout.merged, rfl⟩

theorem merged_tree_absorbed_sample : ∃ out out',
    mergeAll ⟨⟨"left", "right"⟩, .left⟩ [sampleClass, .sampleModule] = .ok out ∧
      mergeAll ⟨⟨"left", "right"⟩, .left⟩ [sampleClass, .sampleModule, sampleClass] = .ok out' ∧
      out'.forest = out.forest :=
  merged_tree_absorbed ⟨⟨"left", "right"⟩, .left⟩ rfl [sampleClass, .sampleModule] (by decide)
    (by decide) (by decide) (by decide) sampleClass (by decide)

end Merge

end Reconcile
