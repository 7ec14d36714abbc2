import Reconcile.Proofs.Forest.Amend
import Reconcile.Proofs.Merge.Lasting
import Reconcile.Proofs.Merge.Run

namespace Reconcile

open Outline (plug)

theorem Outline.Holds.look_eq {look look' : Handle → Option Node} {parent : Option Handle}
    {o : Outline} (ho : o.Holds look parent) (ho' : o.Holds look' parent) :
    ∀ h ∈ o.handles, look h = look' h := by
  induction o generalizing parent with
  | node k c n cs ih =>
      rw [holds_node] at ho ho'
      intro h hh
      rw [handles_node, List.mem_cons, List.mem_flatMap] at hh
      rcases hh with rfl | ⟨x, hx, hh⟩
      · rw [ho.1, ho'.1]
      · exact ih x hx (ho.2 x hx) (ho'.2 x hx) h hh
  | conflict k form labels n l r ihl ihr =>
      rw [holds_conflict] at ho ho'
      intro h hh
      rw [handles_conflict, List.mem_cons, List.mem_append] at hh
      rcases hh with rfl | hh | hh
      · rw [ho.1, ho'.1]
      · exact ihl ho.2.1 ho'.2.1 h hh
      · exact ihr ho.2.2 ho'.2.2 h hh

namespace Merge

variable {o : Options} {s s' : State} {P Q : Draft} {e : Event} {es : List (String × Event)}

namespace Step

theorem conflicts_prefix (hs : Step o P e Q) : P.conflicts <+: Q.conflicts := by
  obtain ⟨-, -, records, -, -, hc, -⟩ := hs.lasts.contests
  exact ⟨records, hc.symm⟩

theorem conflicts_of_left (hk : o.keep = .left) (hs : Step o P e Q) :
    Q.conflicts = P.conflicts := by
  cases hs with
  | newScope | knownScope | keptHeader | left | newLeaf | unitedLeaf | keptLeaf | remarked => rfl
  | contestedHeader | repeatedHeader | joinedLeaf | opposedLeaf | opposedHeaders =>
      simp_all only [reduceCtorEq]

theorem edit_of_silent (hs : Step o P e Q) (hc : Q.conflicts = P.conflicts) :
    Q.loose = P.loose ∧ (Q.outline = P.outline ∨ ∃ path x y adds j, P.outline = plug path x ∧
      Q.outline = plug path y ∧ Edit o.labels P.next adds j x y ∧ (adds = true ∨ j = 0)) := by
  cases hs with
  | newScope s n path c m cs hu hp hcont =>
      exact ⟨rfl, Or.inr ⟨_, _, _, _, _, hp, rfl, .grow _ _ _ _ _ _ hcont rfl, Or.inl rfl⟩⟩
  | newLeaf l n path c m cs hu hp hcont =>
      exact ⟨rfl, Or.inr ⟨_, _, _, _, _, hp, rfl, .grow _ _ _ _ _ _ hcont rfl, Or.inl rfl⟩⟩
  | knownScope s n path h m cs hu hp =>
      exact ⟨rfl, Or.inr ⟨_, _, _, _, _, hp, rfl, .annotate _ _ _ _ _, Or.inr rfl⟩⟩
  | unitedLeaf l n path key h l' m cs hu hp hl =>
      exact ⟨rfl, Or.inr ⟨_, _, _, _, _, hp, rfl, .unite _ _ _ _ _ _ hl, Or.inr rfl⟩⟩
  | remarked comments path c m cs hp =>
      exact ⟨rfl, Or.inr ⟨_, _, _, _, _, hp, rfl, .annotate _ _ _ _ _, Or.inr rfl⟩⟩
  | keptHeader | left | keptLeaf => exact ⟨rfl, Or.inl rfl⟩
  | contestedHeader | repeatedHeader | joinedLeaf | opposedLeaf | opposedHeaders =>
      exact absurd hc (by simp [Draft.record])

theorem conflictFree_of_silent (hs : Step o P e Q) (hc : Q.conflicts = P.conflicts)
    (hf : P.outline.conflictFree = true) : Q.outline.conflictFree = true := by
  obtain ⟨-, hsame | ⟨path, x, y, adds, j, hp, hq, he, hj⟩⟩ := hs.edit_of_silent hc
  · rwa [hsame]
  rw [hp] at hf
  rw [hq]
  refine Outline.conflictFree_plug hf fun hx => ?_
  cases he with
  | grow =>
      simp only [Outline.conflictFree_node, List.mem_append, List.mem_singleton] at hx ⊢
      rintro z (hz | rfl)
      · exact hx z hz
      · rfl
  | annotate | unite => rwa [Outline.conflictFree_node] at hx ⊢
  | contest | join | oppose => simp at hj

theorem handles_perm (hs : Step o P e Q) : ∃ j, Q.next = P.next + j ∧
    Q.handles.Perm (P.handles ++ List.range' P.next j) := by
  have edited {path : List Frame} {x y : Outline} {adds : Bool} {j : Nat}
      (hp : P.outline = plug path x) (he : Edit o.labels P.next adds j x y) :=
    Draft.handles_edit hp he
  cases hs with
  | newScope s n path c m cs hu hp hc => exact ⟨1, rfl, edited hp (.grow _ _ _ _ _ _ hc rfl)⟩
  | newLeaf l n path c m cs hu hp hc => exact ⟨1, rfl, edited hp (.grow _ _ _ _ _ _ hc rfl)⟩
  | knownScope s n path h m cs hu hp => exact ⟨0, rfl, edited hp (.annotate _ _ _ _ _)⟩
  | contestedHeader s n path q c nq before after h t m cs hu hp =>
      exact ⟨2, rfl, edited hp (.contest _ _ _ _ _ _ _ _ _ _ _)⟩
  | repeatedHeader s n => exact ⟨1, rfl, by simp [Draft.handles]⟩
  | keptHeader | left | keptLeaf => exact ⟨0, rfl, by simp [Draft.handles]⟩
  | unitedLeaf l n path key h l' m cs hu hp hl => exact ⟨0, rfl, edited hp (.unite _ _ _ _ _ _ hl)⟩
  | joinedLeaf l n path key q old nq b nb before after h c m cs r nr rs hu hp =>
      exact ⟨1, rfl, edited hp (.join _ _ _ _ _ _ _ _ _)⟩
  | opposedLeaf l n path key q d nq before after h c m cs hu hp =>
      exact ⟨4, rfl, edited hp (.oppose _ _ _ _ _ _ _ _)⟩
  | opposedHeaders l n path key q d nq before after k old nk h c m cs r hu hp =>
      exact ⟨4, rfl, edited hp (.oppose _ _ _ _ _ _ _ _)⟩
  | remarked comments path c m cs hp => exact ⟨0, rfl, edited hp (.annotate _ _ _ _ _)⟩

end Step

namespace Runs

theorem conflicts_prefix (hr : Runs o P es Q) : P.conflicts <+: Q.conflicts := by
  induction hr with
  | nil P => exact List.prefix_rfl
  | cons hs _ ih => exact hs.conflicts_prefix.trans ih

theorem silent_of_append {R : Draft} {es' : List (String × Event)} (hr : Runs o P es R)
    (hr' : Runs o R es' Q) (hc : Q.conflicts = P.conflicts) :
    R.conflicts = P.conflicts ∧ Q.conflicts = R.conflicts := by
  have hle := hr'.conflicts_prefix.length_le
  rw [hc] at hle
  have hR : R.conflicts = P.conflicts := (hr.conflicts_prefix.eq_of_length_le hle).symm
  exact ⟨hR, hc.trans hR.symm⟩

theorem invariant_of_silent {I : Draft → Prop} (hr : Runs o P es Q) (hv : P.Valid)
    (hc : Q.conflicts = P.conflicts)
    (keep : ∀ {P Q e}, P.Valid → Step o P e Q → Q.conflicts = P.conflicts → I P → I Q) (hi : I P) :
    I Q := by
  induction hr with
  | nil => exact hi
  | cons hs hr ih =>
      obtain ⟨hfirst, hrest⟩ := (single hs).silent_of_append hr hc
      exact ih (hs.valid hv) hrest (keep hv hs hfirst hi)

theorem conflictFree_of_silent (hr : Runs o P es Q) (hv : P.Valid) (hc : Q.conflicts = P.conflicts)
    (hf : P.outline.conflictFree = true) : Q.outline.conflictFree = true :=
  hr.invariant_of_silent (I := fun P => P.outline.conflictFree = true) hv hc
    (fun _ hs hc hf => hs.conflictFree_of_silent hc hf) hf

end Runs

/-- The handles that were given out are those in use. -/
def Draft.Complete (P : Draft) : Prop := P.handles.Perm (List.range P.next)

theorem Step.complete (hs : Step o P e Q) (hP : P.Complete) : Q.Complete := by
  obtain ⟨j, hnext, hperm⟩ := hs.handles_perm
  rw [Draft.Complete, hnext, List.range_eq_range', ← List.range'_append_1, ← List.range_eq_range',
    Nat.zero_add]
  exact hperm.trans (List.Perm.append_right _ hP)

theorem Runs.complete (hr : Runs o P es Q) (hP : P.Complete) : Q.Complete := by
  induction hr with
  | nil => exact hP
  | cons hs _ ih => exact ih (hs.complete hP)

theorem Draft.complete_empty : empty.Complete := by
  simp [Complete, empty, handles, Forest.root]

/-- A state is determined by the draft that it depicts. -/
theorem State.Depicts.forest_eq (hd : s.Depicts P) (hd' : s'.Depicts P) (hP : P.Complete) :
    s.forest = s'.forest := by
  refine Forest.eq_of_look (funext fun h => ?_)
  by_cases hh : h < P.next
  · have hm : h ∈ P.handles := hP.mem_iff.mpr (List.mem_range.mpr hh)
    rcases List.mem_append.mp hm with hm | hm
    · exact hd.outline.look_eq hd'.outline h hm
    · obtain ⟨x, hx, hm⟩ := List.mem_flatMap.mp hm
      exact (hd.loose x hx).look_eq (hd'.loose x hx) h hm
  · have hle := Nat.not_lt.mp hh
    rw [Forest.look_none (hd.size ▸ hle), Forest.look_none (hd'.size ▸ hle)]

theorem State.Depicts.state_eq (hd : s.Depicts P) (hd' : s'.Depicts P) (hP : P.Complete) :
    s = s' := by
  have hforest := hd.forest_eq hd' hP
  have hindex := hd.index.trans hd'.index.symm
  have hentered := hd.entered.trans hd'.entered.symm
  have hconflicts := hd.conflicts.trans hd'.conflicts.symm
  cases s
  cases s'
  rw [mk.injEq]
  exact ⟨hforest, hindex, hentered, hconflicts⟩

theorem Runs.mergeAll_append {trees : List Forest} {os : List Outline} {t : Forest} {x : Outline}
    (hos : readings trees = .ok os) (hr : Runs o .empty (os.flatMap (Outline.script "")) Q)
    (ht : t.outline Forest.root = .ok x) (hx : Runs o Q (x.script "") Q) :
    mergeAll o (trees ++ [t]) = mergeAll o trees := by
  have hv := hr.valid Draft.valid_empty
  obtain ⟨s, hs, hd⟩ := hr.depicts State.Depicts.empty Draft.valid_empty
  obtain ⟨s', hs', hd'⟩ := hx.depicts hd hv
  cases hd'.state_eq hd (hr.complete Draft.complete_empty)
  rw [map_snd_scripts, ← foldlM_merge hos] at hs
  rw [Outline.map_snd_script] at hs'
  have hmerge : s.merge o t = .ok s := by
    rw [State.merge, ht]
    exact hs'
  have hfold : (trees ++ [t]).foldlM (State.merge o) {} = trees.foldlM (State.merge o) {} := by
    rw [List.foldlM_append, hs]
    change [t].foldlM (State.merge o) s = _
    rw [List.foldlM_cons, hmerge]
    rfl
  rw [mergeAll, hfold, mergeAll]

end Merge

end Reconcile
