import Reconcile.Merge.Fold
import Reconcile.Proofs.Forest.Grafting
import Reconcile.Proofs.Forest.Tending
import Reconcile.Proofs.Merge.Turn

namespace Reconcile

/-- A node that a container lists. -/
def Listed (look : Handle → Option Node) (h : Handle) : Prop :=
  ∃ p, parentIn look h = some p ∧ HasRoom look p

/-- A declaration that the index of a merge can refer to. -/
structure Filed (f : Forest) (h : Handle) : Prop where
  declares : ∃ n, f.look h = some n ∧ ((∃ s, n.kind = .plain (.scope s)) ∨ ∃ l, n.kind = .plain (.leaf l))
  standing : Listed f.look h ∨ ∃ k n, parentIn f.look h = some k ∧ f.look k = some n ∧
    n.kind.isHeaderConflict = true ∧ Listed f.look k

namespace Kind

theorem scope_of_shape {k : Kind} {s : Scope} (hk : k.shape = (plain (.scope s)).shape) :
    ∃ s, k = plain (.scope s) := by
  unfold shape at hk
  split at hk
  · exact ⟨_, rfl⟩
  · cases hk
  · exact ⟨_, hk⟩

theorem leaf_of_shape {k : Kind} {l : Leaf} (hk : k.shape = (plain (.leaf l)).shape) :
    ∃ l, k = plain (.leaf l) := by
  unfold shape at hk
  split at hk
  · cases hk
  · exact ⟨_, rfl⟩
  · exact ⟨_, hk⟩

theorem isHeaderConflict_shape (k : Kind) : k.shape.isHeaderConflict = k.isHeaderConflict := by
  unfold shape
  split <;> rfl

end Kind

variable {f f' : Forest} {h p c : Handle} {n m : Node}

namespace Extends

theorem room (hx : Extends f f' c) (hr : HasRoom f.look p) : HasRoom f'.look p := by
  obtain ⟨n, hn, hroom⟩ := hr
  obtain ⟨m, hm, hk, -⟩ := hx.node p n hn
  exact ⟨m, hm, (Kind.isContainer_of_shape hk).trans hroom⟩

theorem parent (hx : Extends f f' c) (hne : h ≠ c) (hp : parentIn f.look h = some p) :
    parentIn f'.look h = some p := by
  obtain ⟨n, hn, hp⟩ := Option.bind_eq_some_iff.mp hp
  obtain ⟨m, hm, -, hparent⟩ := hx.node h n hn
  rw [parentIn_of_look hm, hparent hne, hp]

theorem listed (hx : Extends f f' c) (hne : h ≠ c) (hl : Listed f.look h) : Listed f'.look h := by
  obtain ⟨p, hp, hroom⟩ := hl
  exact ⟨p, hx.parent hne hp, hx.room hroom⟩

theorem scope (hx : Extends f f' c) {s : Scope} (hn : f.look h = some n) (hs : n.kind = .plain (.scope s)) :
    ∃ m s, f'.look h = some m ∧ m.kind = .plain (.scope s) := by
  obtain ⟨m, hm, hk, -⟩ := hx.node h n hn
  obtain ⟨s, hs⟩ := Kind.scope_of_shape (hs ▸ hk)
  exact ⟨m, s, hm, hs⟩

theorem declares (hx : Extends f f' c) (hf : Filed f h) :
    ∃ n, f'.look h = some n ∧ ((∃ s, n.kind = .plain (.scope s)) ∨ ∃ l, n.kind = .plain (.leaf l)) := by
  obtain ⟨n, hn, hd⟩ := hf.declares
  obtain ⟨m, hm, hk, -⟩ := hx.node h n hn
  refine ⟨m, hm, ?_⟩
  rcases hd with ⟨s, hs⟩ | ⟨l, hl⟩
  · exact Or.inl (Kind.scope_of_shape (hs ▸ hk))
  · exact Or.inr (Kind.leaf_of_shape (hl ▸ hk))

theorem filed (hx : Extends f f' c) (hf : Filed f h) (hne : h ≠ c)
    (hc : ∀ n, f.look c = some n → n.kind.isHeaderConflict = true → parentIn f.look h = some c →
      Listed f'.look c) : Filed f' h := by
  refine ⟨hx.declares hf, ?_⟩
  rcases hf.standing with hl | ⟨k, n, hk, hn, hh, hl⟩
  · exact Or.inl (hx.listed hne hl)
  · obtain ⟨m, hm, hshape, -⟩ := hx.node k n hn
    have hh' : m.kind.isHeaderConflict = true := by
      rw [← Kind.isHeaderConflict_shape, hshape, Kind.isHeaderConflict_shape, hh]
    refine Or.inr ⟨k, m, hx.parent hne hk, hm, hh', ?_⟩
    by_cases hkc : k = c
    · subst hkc
      exact hc n hn hh hk
    · exact hx.listed hkc hl

theorem filed_of_new (hx : Extends f f' c) (hc : f.size ≤ c) (hf : Filed f h) : Filed f' h := by
  obtain ⟨n, hn, -⟩ := hf.declares
  refine hx.filed hf (Nat.ne_of_lt (Nat.lt_of_lt_of_le (Forest.look_lt hn) hc)) ?_
  intro m hm
  exact absurd (Forest.look_lt hm) (Nat.not_lt.mpr hc)

end Extends

namespace Merge

/-- A merge in progress that every event can go on with. -/
structure State.Sane (s : State) : Prop where
  forest : s.forest.WellFormed
  entered : ∀ h ∈ s.entered, ∃ n sc, s.forest.look h = some n ∧ n.kind = .plain (.scope sc)
  index : ∀ x ∈ s.index.newest, Filed s.forest x.2
  conflicts : ∀ c ∈ s.conflicts, c.left < s.forest.size ∧ c.right < s.forest.size

variable {s s' : State} {key : String} {keys : List String}

namespace State.Sane

theorem empty : ({} : State).Sane where
  forest := by decide
  entered := by simp
  index := by simp
  conflicts := by simp

theorem current (hs : s.Sane) :
    ∃ n, s.forest.look s.current = some n ∧ n.kind.isContainer = true := by
  rw [State.current]
  cases he : s.entered with
  | nil =>
      obtain ⟨n, hn, hk, -⟩ := hs.forest.root
      exact ⟨n, hn, by rw [hk]; rfl⟩
  | cons h hs' =>
      obtain ⟨n, sc, hn, hk⟩ := hs.entered h (by rw [he]; simp)
      exact ⟨n, hn, by rw [hk]; rfl⟩

theorem of_extends (hs : s.Sane) (hw : s'.forest.WellFormed) (hx : Extends s.forest s'.forest c)
    (he : s'.entered = s.entered) (hi : ∀ x ∈ s'.index.newest, Filed s'.forest x.2)
    (hc : ∀ c ∈ s'.conflicts, c ∈ s.conflicts ∨ c.left < s'.forest.size ∧ c.right < s'.forest.size) :
    s'.Sane where
  forest := hw
  entered := by
    rw [he]
    intro h hh
    obtain ⟨n, sc, hn, hk⟩ := hs.entered h hh
    exact hx.scope hn hk
  index := hi
  conflicts := by
    intro c hm
    rcases hc c hm with hm | hm
    · have hold := hs.conflicts c hm
      exact ⟨Nat.lt_of_lt_of_le hold.1 hx.size, Nat.lt_of_lt_of_le hold.2 hx.size⟩
    · exact hm

theorem of_extends_new (hs : s.Sane) (hw : f'.WellFormed) (hx : Extends s.forest f' s.forest.size) :
    { s with forest := f' }.Sane :=
  hs.of_extends hw hx rfl (fun x hm => hx.filed_of_new (Nat.le_refl _) (hs.index x hm))
    fun _ hm => Or.inl hm

end State.Sane

end Merge

end Reconcile
