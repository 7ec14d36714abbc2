import Reconcile.Proofs.Forest.Ranking
import Reconcile.Proofs.Sequencing

namespace Reconcile

open Function (update_apply update_comm update_idem update_eq_self_iff)

def kindIn (look : Handle → Option Node) (h : Handle) : Option Kind := (look h).map Node.kind

def HasRoom (look : Handle → Option Node) (h : Handle) : Prop :=
  ∃ n, look h = some n ∧ n.kind.isContainer = true

/-- A node that is in the table, not as the root and not as a side of a conflict. -/
structure Loose (look : Handle → Option Node) (h : Handle) : Prop where
  ne_root : h ≠ Forest.root
  known : ∃ n, look h = some n
  parent : ∀ p, parentIn look h = some p → HasRoom look p

/-- One node has a new parent, and ranks still rise. -/
structure Shifts (ρ : Handle → Nat) (f f' : Forest) (c : Handle) (parent : Option Handle) : Prop where
  ranked : Ranked f'.look ρ
  size : f'.size = f.size
  kind : ∀ h, kindIn f'.look h = kindIn f.look h
  parent : ∀ h, parentIn f'.look h = if h = c then parent else parentIn f.look h

/-- What a series of moves leaves as it was: the shapes of kinds, and that loose nodes are loose. -/
structure Keeps (f f' : Forest) : Prop where
  size : f.size ≤ f'.size
  kind : ∀ h n, f.look h = some n →
    ∃ m, f'.look h = some m ∧ m.kind.shape = n.kind.shape
  loose : ∀ h, Loose f.look h → Loose f'.look h

variable {f f' f'' : Forest} {ρ : Handle → Nat} {h p c t : Handle} {n m : Node} {cs : List Handle}

theorem Ranked.loose_of_child (hf : Ranked f.look ρ) (hp : f.look p = some n)
    (hn : n.kind.isContainer = true) (hc : c ∈ n.children) : Loose f.look c := by
  have hparent : parentIn f.look c = some p := by
    rw [hf.links, belowIn_of_look hp]
    exact List.mem_append_left _ hc
  refine ⟨?_, ?_, ?_⟩
  · rintro rfl
    obtain ⟨r, hr, -, hnone⟩ := hf.root
    rw [parentIn_of_look hr, hnone] at hparent
    cases hparent
  · obtain ⟨m, hm, -⟩ := Option.bind_eq_some_iff.mp hparent
    exact ⟨m, hm⟩
  · intro q hq
    cases hparent.symm.trans hq
    exact ⟨n, hp, hn⟩

theorem Ranked.filter_children (hf : Ranked f.look ρ) (hn : f.look h = some n)
    (hne : parentIn f.look c ≠ some h) : n.children.filter (· != c) = n.children := by
  apply Forest.filter_ne_eq_self
  intro hc
  apply hne
  rw [hf.links, belowIn_of_look hn]
  exact List.mem_append_left _ hc

namespace Keeps

theorem refl (f : Forest) : Keeps f f := ⟨Nat.le_refl _, fun _ n hn => ⟨n, hn, rfl⟩, fun _ h => h⟩

theorem trans (h : Keeps f f') (h' : Keeps f' f'') : Keeps f f'' where
  size := Nat.le_trans h.size h'.size
  kind := by
    intro x n hn
    obtain ⟨m, hm, hk⟩ := h.kind x n hn
    obtain ⟨m', hm', hk'⟩ := h'.kind x m hm
    exact ⟨m', hm', hk'.trans hk⟩
  loose := fun x hx => h'.loose x (h.loose x hx)

theorem room (hk : Keeps f f') (hr : HasRoom f.look h) : HasRoom f'.look h := by
  obtain ⟨n, hn, hc⟩ := hr
  obtain ⟨m, hm, he⟩ := hk.kind h n hn
  exact ⟨m, hm, (Kind.isContainer_of_shape he).trans hc⟩

end Keeps

theorem Keeps.of_parents (hsize : f.size ≤ f'.size)
    (hkind : ∀ h n, f.look h = some n →
      ∃ m, f'.look h = some m ∧ m.kind.shape = n.kind.shape)
    (hparent : ∀ h n p, f.look h = some n → parentIn f'.look h = some p →
      parentIn f.look h = some p ∨ HasRoom f.look p) : Keeps f f' := by
  have hroom : ∀ p, HasRoom f.look p → HasRoom f'.look p := by
    rintro p ⟨n, hn, hc⟩
    obtain ⟨m, hm, he⟩ := hkind p n hn
    exact ⟨m, hm, (Kind.isContainer_of_shape he).trans hc⟩
  refine ⟨hsize, hkind, ?_⟩
  intro h hh
  obtain ⟨n, hn⟩ := hh.known
  obtain ⟨m, hm, -⟩ := hkind h n hn
  refine ⟨hh.ne_root, ⟨m, hm⟩, ?_⟩
  intro p hp
  rcases hparent h n p hn hp with hp | hp
  · exact hroom p (hh.parent p hp)
  · exact hroom p hp

theorem Shifts.keeps {q : Option Handle} (hs : Shifts ρ f f' c q)
    (hq : ∀ p, q = some p → HasRoom f.look p) : Keeps f f' := by
  apply Keeps.of_parents (Nat.le_of_eq hs.size.symm)
  · intro h n hn
    have he := hs.kind h
    rw [kindIn, kindIn, hn, Option.map_some] at he
    obtain ⟨m, hm, he⟩ := Option.map_eq_some_iff.mp he
    exact ⟨m, hm, by rw [he]⟩
  · intro h n p _ hp
    rw [hs.parent] at hp
    split at hp
    · exact Or.inr (hq p hp)
    · exact Or.inl hp

namespace Forest

theorem detach_shifts (hf : Ranked f.look ρ) (hc : Loose f.look c) :
    ∃ f', f.detach c = .ok f' ∧ Shifts ρ f f' c none := by
  obtain ⟨m, hm⟩ := hc.known
  have hparent := parentIn_of_look hm
  cases hp : m.parent with
  | none =>
      refine ⟨f, detach_root hm hp, hf, rfl, fun _ => rfl, ?_⟩
      grind
  | some p =>
      obtain ⟨n, hn, hroom⟩ := hc.parent p (hparent.trans hp)
      have hparent' := parentIn_of_look hn
      have hpc := hf.ne_parent hm hp
      obtain ⟨f', he, hs, hl⟩ := detach_spec hm hp hn hpc
      refine ⟨f', he, hl ▸ hf.detach hm hp hn hroom, hs, ?_, ?_⟩
      · intro h
        rw [hl, kindIn, kindIn]
        grind
      · intro h
        rw [hl, parentIn_update, parentIn_update, update_apply, update_apply]
        grind

theorem detach_look (hf : Ranked f.look ρ) (hc : Loose f.look c) :
    ∃ f', f.detach c = .ok f' ∧ Shifts ρ f f' c none ∧
      ∀ h m, f.look h = some m → f'.look h = some { m with
        parent := if h = c then none else m.parent
        children := m.children.filter (· != c) } := by
  obtain ⟨f', he, hs⟩ := detach_shifts hf hc
  refine ⟨f', he, hs, ?_⟩
  obtain ⟨k, hk⟩ := hc.known
  have hparent := parentIn_of_look hk
  intro h m hm
  cases hp : k.parent with
  | none =>
      cases he.symm.trans (detach_root hk hp)
      rw [hf.filter_children hm (by simp [hparent, hp]), hm]
      split
      · next hh =>
          subst hh
          cases hm.symm.trans hk
          rw [← hp]
      · rfl
  | some p =>
      obtain ⟨n, hn, -⟩ := hf.exists_parent hk hp
      obtain ⟨f₁, he₁, -, hl⟩ := detach_spec hk hp hn (hf.ne_parent hk hp)
      cases he.symm.trans he₁
      rw [hl]
      by_cases hh : h = p
      · subst hh
        cases hm.symm.trans hn
        simp [hf.ne_parent hk hp]
      · rw [hf.filter_children hm (by simpa [hparent, hp] using Ne.symm hh), Function.update_of_ne hh]
        split
        · next hc =>
            subst hc
            cases hm.symm.trans hk
            exact Function.update_self ..
        · next hc => rw [Function.update_of_ne hc, hm]

/-- A loose node is put into a container of lower rank. To move a node is to detach it first. -/
theorem insert_look (hf : Ranked f.look ρ) (ht : HasRoom f.look t) (hc : Loose f.look c)
    (hρ : ρ t < ρ c) (i : Nat) : ∃ f', f.insert t i c = .ok f' ∧ Shifts ρ f f' c (some t) ∧
      ∀ h m, f.look h = some m → f'.look h = some { m with
        parent := if h = c then some t else m.parent
        children :=
          let others := m.children.filter (· != c)
          if h = t then others.take i ++ c :: others.drop i else others } := by
  obtain ⟨f₁, he₁, h₁, hl₁⟩ := detach_look hf hc
  obtain ⟨n, hn, hroom⟩ := ht
  obtain ⟨k, hk⟩ := hc.known
  have htc : t ≠ c := by
    rintro rfl
    exact Nat.lt_irrefl _ hρ
  have hn₁ := hl₁ t n hn
  have hk₁ := hl₁ c k hk
  rw [if_neg htc] at hn₁
  rw [if_pos rfl] at hk₁
  obtain ⟨f₂, he₂, hs₂, hl₂⟩ := insert_spec hn₁ hroom hk₁ rfl htc i
  have hperm (others : List Handle) : (others.take i ++ c :: others.drop i).Perm (c :: others) := by
    refine List.perm_middle.trans ?_
    rw [List.take_append_drop]
  refine ⟨f₂, ?_, ⟨hl₂ ▸ h₁.ranked.insert hn₁ hroom hk₁ rfl hc.ne_root hρ (hperm _),
    hs₂.trans h₁.size, ?_, ?_⟩, ?_⟩
  · simp only [insert, kind_of_look hn₁, detach_root hk₁ rfl, bind, Except.bind, if_pos hroom] at he₂
    simp only [insert, kind_of_look hn, he₁, bind, Except.bind, if_pos hroom]
    exact he₂
  · intro h
    rw [← h₁.kind, hl₂, kindIn, kindIn]
    clear hperm
    grind
  · intro h
    have := h₁.parent h
    have := parentIn_of_look hn₁
    rw [hl₂, parentIn_update, parentIn_update, update_apply, update_apply]
    clear hperm
    grind
  · intro h m hm
    rw [hl₂]
    by_cases hhc : h = c
    · subst hhc
      cases hm.symm.trans hk
      simp [htc.symm]
    · by_cases hht : h = t
      · subst hht
        cases hm.symm.trans hn
        simp [htc]
      · simp [hhc, hht, hl₁ h m hm]

theorem attach_shifts (hf : Ranked f.look ρ) (ht : HasRoom f.look t) (hc : Loose f.look c)
    (hρ : ρ t < ρ c) : ∃ f', f.attach t c = .ok f' ∧ Shifts ρ f f' c (some t) := by
  obtain ⟨n, hn, -⟩ := id ht
  obtain ⟨f', he, hs, -⟩ := insert_look hf ht hc hρ n.children.length
  refine ⟨f', ?_, hs⟩
  simp only [attach, children_of_look hn, bind, Except.bind]
  exact he

theorem attachAll_keeps (hf : Ranked f.look ρ) (ht : HasRoom f.look t)
    (hcs : ∀ c ∈ cs, Loose f.look c ∧ ρ t < ρ c) :
    ∃ f', f.attachAll t cs = .ok f' ∧ Ranked f'.look ρ ∧ Keeps f f' := by
  refine foldlM_invariant ?_ ⟨hf, .refl f⟩
  rintro f₁ ⟨hf₁, hk₁⟩ c hc
  obtain ⟨f₂, he₂, h₂⟩ := attach_shifts hf₁ (hk₁.room ht) (hk₁.loose c (hcs c hc).1) (hcs c hc).2
  refine ⟨f₂, he₂, h₂.ranked, hk₁.trans (h₂.keeps ?_)⟩
  intro p hp
  cases hp
  exact hk₁.room ht

theorem create_keeps {kind : Kind} {notes : Notes} (he : f.create kind notes = (f', c)) :
    Keeps f f' := by
  obtain ⟨f₁, he₁, hs₁, -⟩ := create_spec f kind notes
  cases he.symm.trans he₁
  apply Keeps.of_parents (by omega)
  · intro h n hn
    exact ⟨n, look_created he hn, rfl⟩
  · intro h n p hn hp
    rw [parentIn_of_look (look_created he hn), ← parentIn_of_look hn] at hp
    exact Or.inl hp

theorem append_keeps (hf : Ranked f.look ρ) (ht : HasRoom f.look t) (hρ : ρ t < ρ f.size)
    (content : Content) (notes : Notes) :
    ∃ f', f.append t content notes = .ok (f', f.size) ∧ Ranked f'.look ρ ∧ Keeps f f' ∧
      kindIn f'.look f.size = some (.plain content) := by
  obtain ⟨f₁, he₁, hs₁, hl₁⟩ := create_spec f (.plain content) notes
  have hk₁ := create_keeps he₁
  have hf₁ : Ranked f₁.look ρ := hl₁ ▸ hf.create (look_none (Nat.le_refl _)) content notes
  have hnew : f₁.look f.size = some ⟨.plain content, notes, none, []⟩ := by
    rw [hl₁, Function.update_self]
  have hloose : Loose f₁.look f.size := by
    refine ⟨?_, ⟨_, hnew⟩, ?_⟩
    · obtain ⟨r, hr, -⟩ := hf.root
      exact (Nat.ne_of_lt (look_lt hr)).symm
    · intro p hp
      rw [parentIn_of_look hnew] at hp
      cases hp
  obtain ⟨f₂, he₂, h₂⟩ := attach_shifts hf₁ (hk₁.room ht) hloose hρ
  refine ⟨f₂, ?_, h₂.ranked, hk₁.trans (h₂.keeps ?_), ?_⟩
  · simp only [append, he₁, he₂, bind, Except.bind]
    rfl
  · intro p hp
    cases hp
    exact hk₁.room ht
  · rw [h₂.kind, kindIn, hnew]
    rfl

theorem gather_keeps (hf : Ranked f.look ρ) (ht : HasRoom f.look t) (hρ : ρ t < ρ f.size)
    {content : Content} (hcontent : content.isContainer = true)
    (hcs : ∀ c ∈ cs, Loose f.look c ∧ ρ f.size < ρ c) :
    ∃ f', gather t content f cs = .ok f' ∧ Ranked f'.look ρ ∧ Keeps f f' := by
  rw [gather]
  split
  · exact ⟨f, rfl, hf, .refl f⟩
  · obtain ⟨f₁, he₁, hf₁, hk₁, hkind⟩ := append_keeps hf ht hρ content {}
    have hroom : HasRoom f₁.look f.size := by
      obtain ⟨n, hn, hk⟩ := Option.map_eq_some_iff.mp hkind
      exact ⟨n, hn, by rw [hk]; exact hcontent⟩
    obtain ⟨f₂, he₂, hf₂, hk₂⟩ := attachAll_keeps hf₁ hroom fun c hc =>
      ⟨hk₁.loose c (hcs c hc).1, (hcs c hc).2⟩
    refine ⟨f₂, ?_, hf₂, hk₁.trans hk₂⟩
    rw [he₁]
    exact he₂

end Forest

end Reconcile
