import Reconcile.Proofs.Normal.Regrouping
import Reconcile.Proofs.Normal.Reordering
import Reconcile.Proofs.Normal.Stability

namespace Reconcile

open Forest Outline

namespace Pass

theorem tracks (p : Pass) {N : Nat} {φ : Handle → Handle} (hφ : ∀ k, N ≤ k → φ k = 0) :
    Tracks N φ p.change p.rule := by
  cases p with
  | nestSingletons => exact tracks_nestSingletons hφ
  | nestVisibilities => exact tracks_nestVisibilities hφ
  | group => exact tracks_group hφ
  | sort => exact tracks_sort N φ

theorem follows (p : Pass) : Follows p.change p.rule := (p.tracks fun _ _ => rfl).follows

theorem sound_rule (p : Pass) (i : Bool) (c : Content) (cs : List Outline)
    (hs : ∀ x ∈ cs, x.sound = true) : ∀ x ∈ p.rule i c cs, x.sound = true := by
  intro x hx
  cases p with
  | nestSingletons =>
      rcases mem_gathered.mp hx with ⟨hx, -⟩ | ⟨-, rfl⟩
      · exact hs x hx
      · rw [sound_node]
        refine ⟨Or.inl rfl, ?_⟩
        intro y hy
        obtain ⟨z, hz, rfl⟩ := List.mem_map.mp hy
        obtain ⟨hz, hm⟩ := List.mem_filter.mp hz
        have hsound := hs z hz
        obtain ⟨h, m, n, ks, rfl⟩ := leaf_of_isSingletonMethod hm
        rw [sound_node] at hsound
        rw [clearSingleton, sound_node]
        exact hsound
  | nestVisibilities =>
      cases i with
      | true => exact hs x hx
      | false =>
          rcases mem_sections hx with ⟨hx, -⟩ | ⟨v, ms, rfl, hms⟩
          · exact hs x hx
          · rw [sound_node]
            exact ⟨Or.inl rfl, fun y hy => hs y (hms y hy).1⟩
  | group =>
      cases hc : Outline.isGroup c with
      | true =>
          simp only [rule, hc, if_true] at hx
          exact hs x hx
      | false =>
          simp only [rule, hc, Bool.false_eq_true, if_false] at hx
          obtain ⟨k, rfl⟩ := mem_grouped hx
          rw [sound_node]
          refine ⟨Or.inl rfl, fun y hy => ?_⟩
          rcases mem_members hy with hy | ⟨h, n, ks, hg, hy⟩
          · exact hs y hy
          · exact ((sound_node ..).mp (hs _ hg)).2 y hy
  | sort => exact hs x ((perm_sort i c cs).mem_iff.mp hx)

end Pass

namespace Forest.Shows

variable {f g : Forest} {o o' : Outline}

theorem run (hf : f.Shows o) (p : Pass) :
    ∃ f' o', p.run f = .ok f' ∧ f'.Shows o' ∧ o'.forget = p.reworked o.forget :=
  hf.upward p.follows p.sound_rule

theorem runPassesFrom {N : Nat} {φ : Handle → Handle} (hφ : ∀ k, N ≤ k → φ k = 0)
    (hf : f.Shows o) (hN : N ≤ f.size) (ps : List Pass) :
    ∃ f' o', f.runPasses ps = .ok f' ∧ f'.Shows o' ∧
      o'.rename φ = ps.foldl (fun o p => p.reworked o) (o.rename φ) := by
  induction ps generalizing f o with
  | nil => exact ⟨f, o, rfl, hf, rfl⟩
  | cons p ps ih =>
      obtain ⟨f₁, o₁, he₁, hf₁, hpatch, ho₁⟩ := hf.upwardFrom hN (p.tracks hφ) p.sound_rule
      obtain ⟨f', o', he, hf', ho'⟩ := ih hf₁ (Nat.le_trans hN hpatch.size)
      refine ⟨f', o', ?_, hf', ?_⟩
      · rw [Forest.runPasses, List.foldlM_cons, Pass.run, he₁]
        exact he
      · rw [ho', ho₁, List.foldl_cons]
        rfl

theorem runPasses (hf : f.Shows o) (ps : List Pass) :
    ∃ f' o', f.runPasses ps = .ok f' ∧ f'.Shows o' ∧
      o'.forget = ps.foldl (fun o p => p.reworked o) o.forget :=
  hf.runPassesFrom (fun _ _ => rfl) (Nat.zero_le _) ps

theorem same (hf : f.Shows o) (hg : g.Shows o') (h : o.forget = o'.forget) :
    f.same Forest.root g Forest.root = .ok true := by
  simp only [Forest.same, hf.outline, hg.outline, bind, Except.bind, same_of_forget h]
  rfl

end Forest.Shows

theorem foldl_reworked {o : Outline} (ho : ∀ p : Pass, p.reworked o = o) (ps : List Pass) :
    ps.foldl (fun o p => p.reworked o) o = o := by
  induction ps with
  | nil => rfl
  | cons p ps ih => rw [List.foldl_cons, ho p, ih]

/-- The normal form of a well-formed forest is its own normal form, and no pass changes what it gives
itself. -/
theorem Forest.normalize_idempotent {f : Forest} (hf : f.WellFormed) :
    (∃ g g', f.normalize = .ok g ∧ g.normalize = .ok g' ∧
      g'.same Forest.root g Forest.root = .ok true) ∧
    ∀ p : Pass, ∃ g g', p.run f = .ok g ∧ p.run g = .ok g' ∧
      g'.same Forest.root g Forest.root = .ok true := by
  obtain ⟨o, ho⟩ := hf.exists_shows
  constructor
  · obtain ⟨g, x, hg, hx, hxo⟩ := ho.runPasses Pass.canonical
    obtain ⟨g', y, hg', hy, hyx⟩ := hx.runPasses Pass.canonical
    refine ⟨g, g', hg, hg', hy.same hx ?_⟩
    rw [hyx, hxo]
    exact foldl_reworked (fun p => reworked_canonical p o.forget) _
  · intro p
    obtain ⟨g, x, hg, hx, hxo⟩ := ho.run p
    obtain ⟨g', y, hg', hy, hyx⟩ := hx.run p
    refine ⟨g, g', hg, hg', hy.same hx ?_⟩
    rw [hyx, hxo, p.reworked_idempotent]

def Forest.assorted : Forest :=
  ⟨#[{ kind := .plain .tree, children := [1, 7] },
    { kind := .plain (.scope (.classNamed "A" none)), parent := some 0, children := [2, 3, 4, 6] },
    { kind := .plain (.leaf (.method { name := "b", isSingleton := true })), parent := some 1 },
    { kind := .plain (.leaf (.method { name := "a", visibility := .priv })), parent := some 1 },
    { kind := .plain (.group .methods), parent := some 1, children := [5] },
    { kind := .plain (.leaf (.marker .prot)), parent := some 4 },
    { kind := .plain (.visibilityGroup .pub), parent := some 1 },
    { kind := .conflict .declarations ⟨"left", "right"⟩ 8 9, parent := some 0 },
    { kind := .plain .tree, parent := some 7, children := [10] },
    { kind := .plain .tree, parent := some 7 },
    { kind := .plain (.leaf (.constant "B" "1")), parent := some 8 }]⟩

theorem Forest.normalize_idempotent_assorted : Forest.assorted.WellFormed ∧
    (∃ g g', Forest.assorted.normalize = .ok g ∧ g.normalize = .ok g' ∧
      g'.same Forest.root g Forest.root = .ok true) ∧
    ∀ p : Pass, ∃ g g', p.run Forest.assorted = .ok g ∧ p.run g = .ok g' ∧
      g'.same Forest.root g Forest.root = .ok true := by
  have hf : Forest.assorted.WellFormed := by decide
  exact ⟨hf, normalize_idempotent hf⟩

end Reconcile
