import Mathlib.Data.List.Pairwise
import Reconcile.Proofs.Forest.Identity
import Reconcile.Proofs.Merge.Progress

namespace Reconcile.Merge.Draft

variable {P : Draft} {keys : List String} {key : String} {h : Handle} {e : Entry}

theorem mem_recent_iff {i : Index} : h ∈ i.recent key ↔ (key, h) ∈ i.newest := by
  refine ⟨mem_recent, fun hm => ?_⟩
  rw [Index.recent, List.mem_filterMap]
  exact ⟨(key, h), hm, if_pos rfl⟩

theorem recent_eq_nil {i : Index} (hi : ∀ x ∈ i.newest, x.1 ≠ key) : i.recent key = [] := by
  rw [List.eq_nil_iff_forall_not_mem]
  intro h hm
  exact hi _ (mem_recent hm) rfl

theorem recent_map (i : Index) (φ : Handle → Handle) (key : String) :
    (Index.mk (i.newest.map fun x => (x.1, φ x.2))).recent key = (i.recent key).map φ := by
  rw [Index.recent, Index.recent, List.filterMap_map, List.map_filterMap]
  apply List.filterMap_congr
  intro x _
  by_cases hx : x.1 = key <;> simp [hx]

theorem recent_insertAll (i : Index) (keys : List String) (h : Handle) (key : String) :
    (i.insertAll keys h).recent key = List.replicate (keys.count key) h ++ i.recent key := by
  induction keys generalizing i with
  | nil => rfl
  | cons k keys ih =>
      rw [Index.insertAll, List.foldl_cons, ← Index.insertAll, ih]
      by_cases hk : k = key
      · have hr : (i.insert k h).recent key = h :: i.recent key := by
          simp [Index.recent, Index.insert, hk]
        rw [hr, hk, List.count_cons_self, List.replicate_succ', List.append_assoc]
        rfl
      · have hr : (i.insert k h).recent key = i.recent key := by
          simp [Index.recent, Index.insert, hk]
        rw [hr, List.count_cons_of_ne hk]

theorem scopeUnder?_eq_none (hi : ∀ x ∈ P.index.newest, x.1 ≠ key) : P.scopeUnder? key = none := by
  rw [scopeUnder?, recent_eq_nil hi]
  rfl

theorem previous?_eq_none (hi : ∀ x ∈ P.index.newest, x.1 ∉ keys) : P.previous? keys = none := by
  rw [previous?, List.findSome?_eq_none_iff]
  intro key hk
  rw [Index.last?, recent_eq_nil fun x hx heq => hi x hx (heq ▸ hk)]
  rfl

theorem Valid.mem_newest_iff (hv : P.Valid) :
    (key, h) ∈ P.index.newest ↔ ∃ e ∈ P.census, e.handle = h ∧ key ∈ e.keys := by
  refine ⟨mem_index hv, ?_⟩
  rintro ⟨e, he, rfl, hk⟩
  rw [hv.index.mem_iff, List.mem_flatMap]
  exact ⟨e, he, List.mem_map.mpr ⟨key, hk, rfl⟩⟩

theorem isScopeAt_of_mem (he : e ∈ P.census) (hs : e.content.scope?.isSome = true) :
    P.isScopeAt e.handle = true := by
  rw [isScopeAt, List.any_eq_true]
  exact ⟨e, he, by simp [hs]⟩

/-- The declaration `e` has the key, and no other one has it. -/
structure Sole (P : Draft) (key : String) (e : Entry) : Prop where
  mem : e ∈ P.census
  holds : key ∈ e.keys
  unique : ∀ e' ∈ P.census, key ∈ e'.keys → e' = e

instance : Std.Symm Entry.Apart := ⟨fun _ _ h _ hk hk' => h hk' hk⟩

theorem sole_of_apart (ha : P.census.Pairwise Entry.Apart) (he : e ∈ P.census) (hk : key ∈ e.keys) :
    P.Sole key e := by
  refine ⟨he, hk, fun e' he' hk' => ?_⟩
  by_contra hne
  exact ha.forall he' he hne hk' hk

theorem Sole.exists_recent (hs : P.Sole key e) (hv : P.Valid) :
    ∃ rest, P.index.recent key = e.handle :: rest := by
  have hm : e.handle ∈ P.index.recent key :=
    mem_recent_iff.mpr (hv.mem_newest_iff.mpr ⟨e, hs.mem, rfl, hs.holds⟩)
  cases hr : P.index.recent key with
  | nil => rw [hr] at hm; cases hm
  | cons h rest =>
      have hh : h ∈ P.index.recent key := by rw [hr]; exact List.mem_cons_self
      obtain ⟨e', he', rfl, hk⟩ := hv.mem_newest_iff.mp (mem_recent hh)
      rw [hs.unique e' he' hk]
      exact ⟨rest, rfl⟩

theorem Sole.last? (hs : P.Sole key e) (hv : P.Valid) : P.index.last? key = some e.handle := by
  obtain ⟨rest, hr⟩ := hs.exists_recent hv
  rw [Index.last?, hr]
  rfl

theorem Sole.scopeUnder? (hs : P.Sole key e) (hv : P.Valid) {s : Scope} (hc : e.content = .scope s) :
    P.scopeUnder? key = some e.handle := by
  obtain ⟨rest, hr⟩ := hs.exists_recent hv
  have hscope : P.isScopeAt e.handle = true := isScopeAt_of_mem hs.mem (by rw [hc]; rfl)
  rw [Draft.scopeUnder?, hr, List.find?_cons_of_pos hscope]

theorem Sole.previous? (hs : P.Sole key e) (hv : P.Valid) (rest : List String) :
    P.previous? (key :: rest) = some (key, e.handle) := by
  rw [Draft.previous?, List.findSome?_cons, hs.last? hv]
  rfl

end Reconcile.Merge.Draft
