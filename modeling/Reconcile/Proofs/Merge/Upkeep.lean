import Reconcile.Merge.Fold
import Reconcile.Proofs.Forest.Relocation

namespace Reconcile

theorem Kind.isContainer_of_side {k : Kind} {form : ConflictForm} {labels : Labels} {l r : Handle}
    (hk : k.canBeSideOf (conflict form labels l r) = true) : k.isContainer = true := by
  cases k with
  | conflict => cases hk
  | plain c => cases form <;> cases c <;> first | rfl | cases hk

namespace Forest

variable {f f₀ : Forest} {ρ : Handle → Nat} {h c s t : Handle} {n m : Node}

structure SideBelow (f : Forest) (h s : Handle) : Prop where
  room : HasRoom f.look s
  depth : f.depth s = f.depth h + 2

theorem WellFormed.sideBelow (hf : f.WellFormed) (hm : f.look c = some m) (hp : m.parent = some h)
    (hs : s ∈ m.kind.sides) : f.SideBelow h s := by
  have hside := hf.ranked.parentIn_side hm hs
  obtain ⟨k, hk, -⟩ := Option.bind_eq_some_iff.mp hside
  refine ⟨⟨k, hk, ?_⟩, by rw [hf.depth_parentIn hside, hf.depth_child hm hp]⟩
  have hsuits := hf.ranked.suits c m s k hm hs hk
  cases hkind : m.kind with
  | plain => simp [hkind, Kind.sides] at hs
  | conflict form labels l r => exact Kind.isContainer_of_side (hkind ▸ hsuits)

theorem moveChildren_keeps (hf : Ranked f.look ρ) (hs : HasRoom f.look s) (ht : HasRoom f.look t)
    (hρ : ρ t = ρ s) :
    ∃ f', f.moveChildren s t = .ok f' ∧ Ranked f'.look ρ ∧ Keeps f f' := by
  obtain ⟨n, hn, hroom⟩ := hs
  have hcs : ∀ c ∈ n.children, Loose f.look c ∧ ρ t < ρ c := by
    intro c hc
    have hloose := hf.loose_of_child hn hroom hc
    obtain ⟨k, hk⟩ := hloose.known
    have hparent := (hf.child_iff hn hroom hk).mp hc
    exact ⟨hloose, hρ ▸ hf.rises c s ((parentIn_of_look hk).trans hparent)⟩
  obtain ⟨f', he, hf', hk⟩ := attachAll_keeps hf ht hcs
  refine ⟨f', ?_, hf', hk⟩
  rw [moveChildren, children_of_look hn]
  exact he

/-- A container with some of its runs folded; the current run goes to sides of its conflicts. -/
structure Folding (f₀ : Forest) (h : Handle) (state : Forest × Run) : Prop where
  ranked : Ranked state.1.look f₀.depth
  keeps : Keeps f₀ state.1
  run : ∀ l r, state.2 = some (l, r) → f₀.SideBelow h l ∧ f₀.SideBelow h r

theorem extendRun_folding (hf : f₀.WellFormed) (hn : f₀.look h = some n)
    (hroom : n.kind.isContainer = true) (hc : c ∈ n.children) {state : Forest × Run}
    (hs : Folding f₀ h state) : ∃ state', extendRun state c = .ok state' ∧ Folding f₀ h state' := by
  obtain ⟨f, run⟩ := state
  obtain ⟨hf₁, hk₁, hrun⟩ := hs
  have hloose := hf.ranked.loose_of_child hn hroom hc
  obtain ⟨m₀, hm₀⟩ := hloose.known
  have hparent := (hf.ranked.child_iff hn hroom hm₀).mp hc
  obtain ⟨m, hm, hkind⟩ := hk₁.kind c m₀ hm₀
  have hend : Folding f₀ h (f, none) := ⟨hf₁, hk₁, by simp⟩
  have hsides : ∀ l r labels, m.kind = .conflict .declarations labels l r →
      f₀.SideBelow h l ∧ f₀.SideBelow h r := by
    intro l r labels he
    have hkind₀ := Kind.conflict_of_shape (hkind.symm.trans (by rw [he]; rfl))
    exact ⟨hf.sideBelow hm₀ hparent (by simp [hkind₀, Kind.sides]),
      hf.sideBelow hm₀ hparent (by simp [hkind₀, Kind.sides])⟩
  simp only [extendRun, kind_of_look hm, bind, Except.bind]
  split
  · next labels l r hk =>
      refine ⟨(f, some (l, r)), rfl, hf₁, hk₁, ?_⟩
      intro l' r' he
      cases he
      exact hsides l r labels hk
  · next labels l r l' r' hk =>
      obtain ⟨hl, hr⟩ := hsides l r labels hk
      obtain ⟨hl', hr'⟩ := hrun l' r' rfl
      obtain ⟨f₂, he₂, hf₂, hk₂⟩ := moveChildren_keeps hf₁ (hk₁.room hl.room) (hk₁.room hl'.room)
        (hl'.depth.trans hl.depth.symm)
      have hk₂ := hk₁.trans hk₂
      obtain ⟨f₃, he₃, hf₃, hk₃⟩ := moveChildren_keeps hf₂ (hk₂.room hr.room) (hk₂.room hr'.room)
        (hr'.depth.trans hr.depth.symm)
      have hk₃ := hk₂.trans hk₃
      obtain ⟨f₄, he₄, h₄⟩ := detach_shifts hf₃ (hk₃.loose c hloose)
      refine ⟨(f₄, some (l', r')), ?_, h₄.ranked, hk₃.trans (h₄.keeps (by simp)), hrun⟩
      simp only [he₂, he₃, he₄]
      rfl
  · exact ⟨_, rfl, hend⟩

theorem coalesceIn_wellFormed (hf : f.WellFormed) (hn : f.look h = some n)
    (hc : n.kind.isContainer = true) :
    ∃ f', coalesceIn f h n.children = .ok f' ∧ f'.WellFormed := by
  have hstart : Folding f h (f, none) := ⟨hf.ranked, .refl f, by simp⟩
  obtain ⟨⟨f', run⟩, he, hf', -, -⟩ := foldlM_invariant
    (fun state hs c hm => extendRun_folding hf hn hc hm hs) hstart
  refine ⟨f', ?_, hf'.wellFormed⟩
  rw [coalesceIn, he]
  rfl

end Forest

end Reconcile
