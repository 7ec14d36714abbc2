import Reconcile.Normal
import Reconcile.Proofs.Forest.Relocation
import Reconcile.Proofs.Normal.Sorting

namespace Reconcile.Forest

variable {f f' : Forest} {ρ : Handle → Nat} {h t c : Handle} {n m : Node} {cs : List Handle}

/-- Ranks with room for new nodes between `h` and what is below it. -/
def spacious (f : Forest) (h x : Handle) : Nat :=
  if x < f.size then 2 * f.depth x else 2 * f.depth h + 1

theorem WellFormed.spacious (hf : f.WellFormed) (h : Handle) : Ranked f.look (f.spacious h) :=
  hf.ranked_new Nat.two_pos fun _ => 2 * f.depth h + 1

theorem spacious_new {x : Handle} (hx : f.size ≤ x) : f.spacious h x = 2 * f.depth h + 1 :=
  if_neg (Nat.not_lt.mpr hx)

/-- What is known of a container that a pass comes to. -/
structure Worked (f : Forest) (h : Handle) (cs : List Handle) : Prop where
  wellFormed : f.WellFormed
  room : HasRoom f.look h
  children : ∀ c ∈ cs, Loose f.look c ∧ 2 * f.depth h + 2 ≤ f.spacious h c

theorem WellFormed.worked (hf : f.WellFormed) (hn : f.look h = some n)
    (hc : n.kind.isContainer = true) : f.Worked h n.children := by
  refine ⟨hf, ⟨n, hn, hc⟩, ?_⟩
  intro c hm
  have hparent : parentIn f.look c = some h := by
    rw [hf.ranked.links, belowIn_of_look hn]
    exact List.mem_append_left _ hm
  obtain ⟨m, hlook, -⟩ := Option.bind_eq_some_iff.mp hparent
  refine ⟨hf.ranked.loose_of_child hn hc hm, ?_⟩
  rw [Forest.spacious, if_pos (look_lt hlook), hf.depth_parentIn hparent]
  omega

namespace Worked

theorem lt_new (hw : f.Worked h cs) {x : Handle} (hx : f.size ≤ x) :
    f.spacious h h < f.spacious h x := by
  obtain ⟨n, hn, -⟩ := hw.room
  rw [spacious_new hx, Forest.spacious, if_pos (look_lt hn)]
  exact Nat.lt_succ_self _

theorem new_lt (hw : f.Worked h cs) (hc : c ∈ cs) {x : Handle} (hx : f.size ≤ x) :
    f.spacious h x < f.spacious h c := by
  rw [spacious_new hx]
  exact (hw.children c hc).2

end Worked

theorem exists_mapM_paired {α β : Type} (g : Handle → Except Fault α) (pair : α → Handle → β)
    {handle : β → Handle} (hpair : ∀ a c, handle (pair a c) = c) (hg : ∀ c ∈ cs, ∃ a, g c = .ok a) :
    ∃ bs, (cs.mapM fun c => return pair (← g c) c) = .ok bs ∧ bs.map handle = cs := by
  have hpaired : ∀ c ∈ cs, ∃ b, (do return pair (← g c) c) = .ok b := by
    intro c hc
    obtain ⟨a, ha⟩ := hg c hc
    exact ⟨pair a c, by rw [ha]; rfl⟩
  obtain ⟨bs, hbs⟩ := exists_mapM hpaired
  refine ⟨bs, hbs, ?_⟩
  have hall := forall₂_of_mapM hbs
  clear hbs hpaired
  induction hall with
  | nil => rfl
  | @cons c b cs bs hb _ ih =>
      obtain ⟨a, ha⟩ := hg c (by simp)
      rw [ha] at hb
      cases hb
      rw [List.map_cons, hpair, ih fun x hx => hg x (by simp [hx])]

theorem kinds_of_known (hcs : ∀ c ∈ cs, ∃ n, f.look c = some n) :
    ∃ ks, f.kinds cs = .ok ks ∧ ks.map (·.1) = cs ∧
      ∀ x ∈ ks, ∃ n, f.look x.1 = some n ∧ n.kind = x.2 := by
  induction cs with
  | nil => exact ⟨[], rfl, rfl, by simp⟩
  | cons c cs ih =>
      obtain ⟨n, hn⟩ := hcs c (by simp)
      obtain ⟨ks, hks, hfst, hkind⟩ := ih fun x hx => hcs x (by simp [hx])
      refine ⟨(c, n.kind) :: ks, ?_, by rw [List.map_cons, hfst], ?_⟩
      · rw [kinds] at hks ⊢
        rw [List.mapM_cons, hks, kind_of_look hn]
        rfl
      · intro x hx
        rcases List.mem_cons.mp hx with rfl | hx
        · exact ⟨n, hn, rfl⟩
        · exact hkind x hx

theorem mem_of_picked {ks : List (Handle × Kind)} {pick : Handle × Kind → Bool}
    (hks : ks.map (·.1) = cs) (hc : c ∈ (ks.filter pick).map (·.1)) : c ∈ cs := by
  obtain ⟨x, hx, rfl⟩ := List.mem_map.mp hc
  rw [← hks]
  exact List.mem_map_of_mem (List.mem_filter.mp hx).1

theorem gatherEach_keeps {α : Type} (content : α → Content) (members : α → List Handle) (ks : List α)
    (hcontent : ∀ k, (content k).isContainer = true) (hf : Ranked f.look ρ) (ht : HasRoom f.look t)
    (hρ : ∀ x, f.size ≤ x → ρ t < ρ x)
    (hcs : ∀ k, ∀ c ∈ members k, Loose f.look c ∧ ∀ x, f.size ≤ x → ρ x < ρ c) :
    ∃ f', ks.foldlM (fun f k => gather t (content k) f (members k)) f = .ok f' ∧
      Ranked f'.look ρ ∧ Keeps f f' := by
  refine foldlM_invariant ?_ ⟨hf, .refl f⟩
  rintro f₁ ⟨hf₁, hk₁⟩ k -
  obtain ⟨f₂, he₂, hf₂, hk₂⟩ := gather_keeps hf₁ (hk₁.room ht) (hρ _ hk₁.size) (hcontent k)
    fun c hc => ⟨hk₁.loose c (hcs k c hc).1, (hcs k c hc).2 _ hk₁.size⟩
  exact ⟨f₂, he₂, hf₂, hk₁.trans hk₂⟩

theorem shape_clearSingleton (k : Kind) : k.clearSingleton.shape = k.shape := by
  unfold Kind.clearSingleton
  split <;> rfl

theorem clearSingleton_keeps (hf : Ranked f.look ρ) (hn : f.look h = some n)
    (hl : f'.look = Function.update f.look h (some { n with kind := n.kind.clearSingleton }))
    (hs : f'.size = f.size) : Ranked f'.look ρ ∧ Keeps f f' := by
  have hshape := shape_clearSingleton n.kind
  have hparent := parentIn_of_look hn
  refine ⟨hl ▸ hf.amend hn hshape n.notes, Keeps.of_parents (Nat.le_of_eq hs.symm) ?_ ?_⟩
  · rw [hl]
    grind
  · intro x m p _ hp
    rw [hl, parentIn_update, Function.update_apply] at hp
    grind

theorem moveSingleton_keeps (hf : Ranked f.look ρ) (ht : HasRoom f.look t) (hc : Loose f.look c)
    (hρ : ρ t < ρ c) : ∃ f', moveSingleton t f c = .ok f' ∧ Ranked f'.look ρ ∧ Keeps f f' := by
  obtain ⟨m, hm⟩ := hc.known
  obtain ⟨f₁, he₁, hs₁, hl₁⟩ := update_spec hm fun n => { n with kind := n.kind.clearSingleton }
  obtain ⟨hf₁, hk₁⟩ := clearSingleton_keeps hf hm hl₁ hs₁
  obtain ⟨f₂, he₂, h₂⟩ := attach_shifts hf₁ (hk₁.room ht) (hk₁.loose c hc) hρ
  refine ⟨f₂, ?_, h₂.ranked, hk₁.trans (h₂.keeps ?_)⟩
  · simp only [moveSingleton, he₁, bind, Except.bind]
    exact he₂
  · intro p hp
    cases hp
    exact hk₁.room ht

theorem nestSingletonsIn_wellFormed (hw : f.Worked h cs) :
    ∃ f', nestSingletonsIn f h cs = .ok f' ∧ f'.WellFormed := by
  obtain ⟨ks, hks, hfst, -⟩ := kinds_of_known fun c hc => (hw.children c hc).1.known
  simp only [nestSingletonsIn, hks, bind, Except.bind]
  split
  · exact ⟨f, rfl, hw.wellFormed⟩
  · obtain ⟨f₁, he₁, hf₁, hk₁, hkind⟩ := append_keeps (hw.wellFormed.spacious h) hw.room
      (hw.lt_new (Nat.le_refl _)) (.scope .singleton) {}
    have hroom : HasRoom f₁.look f.size := by
      obtain ⟨n, hn, hk⟩ := Option.map_eq_some_iff.mp hkind
      exact ⟨n, hn, by rw [hk]; rfl⟩
    have hmove : ∀ f₂, Ranked f₂.look (f.spacious h) ∧ Keeps f₁ f₂ →
        ∀ c ∈ (ks.filter (·.2.isSingletonMethod)).map (·.1), ∃ f₃, moveSingleton f.size f₂ c = .ok f₃ ∧
          Ranked f₃.look (f.spacious h) ∧ Keeps f₁ f₃ := by
      rintro f₂ ⟨hf₂, hk₂⟩ c hc
      have hm := mem_of_picked hfst hc
      obtain ⟨f₃, he₃, hf₃, hk₃⟩ := moveSingleton_keeps hf₂ (hk₂.room hroom)
        (hk₂.loose c (hk₁.loose c (hw.children c hm).1)) (hw.new_lt hm (Nat.le_refl _))
      exact ⟨f₃, he₃, hf₃, hk₂.trans hk₃⟩
    obtain ⟨f₂, he₂, hf₂, -⟩ := foldlM_invariant hmove ⟨hf₁, .refl f₁⟩
    refine ⟨f₂, ?_, hf₂.wellFormed⟩
    simp only [he₁]
    exact he₂

theorem nestVisibilitiesIn_wellFormed (hw : f.Worked h cs) :
    ∃ f', nestVisibilitiesIn f h cs = .ok f' ∧ f'.WellFormed := by
  obtain ⟨n, hn, hc⟩ := hw.room
  obtain ⟨up, hup⟩ := hw.wellFormed.exists_ancestors hn
  have hknown : ∀ x ∈ h :: up, ∃ m, f.look x = some m := by
    intro x hx
    rcases List.mem_cons.mp hx with rfl | hx
    · exact ⟨n, hn⟩
    · exact hw.wellFormed.known_ancestors hup hn x hx
  obtain ⟨around, haround, -⟩ := kinds_of_known hknown
  obtain ⟨ks, hks, hfst, -⟩ := kinds_of_known fun c hc => (hw.children c hc).1.known
  simp only [nestVisibilitiesIn, inVisibilityGroup, hup, haround, hks, bind, Except.bind, pure,
    Except.pure]
  split
  · exact ⟨f, rfl, hw.wellFormed⟩
  · obtain ⟨f', he, hf', -⟩ := gatherEach_keeps .visibilityGroup
      (fun v => (ks.filter (·.2.visibility? = some v)).map (·.1)) Visibility.all (fun _ => rfl)
      (hw.wellFormed.spacious h) hw.room (fun x hx => hw.lt_new hx) fun v c hc =>
        ⟨(hw.children c (mem_of_picked hfst hc)).1, fun x hx =>
          hw.new_lt (mem_of_picked hfst hc) hx⟩
    exact ⟨f', he, hf'.wellFormed⟩

theorem detachAll_keeps (hf : Ranked f.look ρ) (hcs : ∀ c ∈ cs, Loose f.look c) :
    ∃ f', cs.foldlM detach f = .ok f' ∧ Ranked f'.look ρ ∧ Keeps f f' ∧ f'.size = f.size := by
  refine foldlM_invariant ?_ ⟨hf, .refl f, rfl⟩
  rintro f₁ ⟨hf₁, hk₁, hs₁⟩ c hc
  obtain ⟨f₂, he₂, h₂⟩ := detach_shifts hf₁ (hk₁.loose c (hcs c hc))
  exact ⟨f₂, he₂, h₂.ranked, hk₁.trans (h₂.keeps (by simp)), h₂.size.trans hs₁⟩

/-- A forest with the nodes that have been released so far, all of them of rank `b` at least. -/
structure Releasing (ρ : Handle → Nat) (b : Nat) (f₀ : Forest)
    (state : Forest × List (Category × Handle)) : Prop where
  ranked : Ranked state.1.look ρ
  keeps : Keeps f₀ state.1
  size : state.1.size = f₀.size
  released : ∀ x ∈ state.2, Loose state.1.look x.2 ∧ b ≤ ρ x.2

theorem release_keeps {b : Nat} {f₀ : Forest} {s : Forest × List (Category × Handle)}
    (hs : Releasing ρ b f₀ s) (hc : Loose f₀.look c) (hb : b ≤ ρ c) :
    ∃ s', release s c = .ok s' ∧ Releasing ρ b f₀ s' := by
  obtain ⟨f, acc⟩ := s
  obtain ⟨hf, hk, hsize, hacc⟩ := hs
  obtain ⟨f₁, he₁, h₁⟩ := detach_shifts hf (hk.loose c hc)
  have hk₁ := h₁.keeps (by simp)
  obtain ⟨m, hm⟩ := (hk₁.loose c (hk.loose c hc)).known
  have hsingle : Releasing ρ b f₀ (f₁, acc ++ [(m.kind.category, c)]) := by
    refine ⟨h₁.ranked, hk.trans hk₁, h₁.size.trans hsize, ?_⟩
    intro x hx
    rcases List.mem_append.mp hx with hx | hx
    · exact ⟨hk₁.loose _ (hacc x hx).1, (hacc x hx).2⟩
    · cases List.mem_singleton.mp hx
      exact ⟨hk₁.loose c (hk.loose c hc), hb⟩
  simp only [release, he₁, kind_of_look hm, children_of_look hm, bind, Except.bind]
  split
  · next category hgroup =>
      have hmembers : ∀ x ∈ m.children, Loose f₁.look x ∧ b ≤ ρ x := by
        intro x hx
        have hroom : m.kind.isContainer = true := by rw [hgroup]; rfl
        have hloose := h₁.ranked.loose_of_child hm hroom hx
        obtain ⟨k, hk⟩ := hloose.known
        have hparent := (h₁.ranked.child_iff hm hroom hk).mp hx
        have hrise := h₁.ranked.rises x c ((parentIn_of_look hk).trans hparent)
        exact ⟨hloose, by omega⟩
      obtain ⟨f₂, he₂, hf₂, hk₂, hs₂⟩ := detachAll_keeps h₁.ranked fun x hx => (hmembers x hx).1
      refine ⟨(f₂, acc ++ m.children.map (category, ·)), ?_, hf₂, (hk.trans hk₁).trans hk₂,
        hs₂.trans (h₁.size.trans hsize), ?_⟩
      · simp only [he₂]
        rfl
      · intro x hx
        rcases List.mem_append.mp hx with hx | hx
        · exact ⟨hk₂.loose _ (hk₁.loose _ (hacc x hx).1), (hacc x hx).2⟩
        · obtain ⟨y, hy, rfl⟩ := List.mem_map.mp hx
          exact ⟨hk₂.loose y (hmembers y hy).1, (hmembers y hy).2⟩
  · exact ⟨_, rfl, hsingle⟩

theorem groupIn_wellFormed (hw : f.Worked h cs) : ∃ f', groupIn f h cs = .ok f' ∧ f'.WellFormed := by
  obtain ⟨n, hn, hc⟩ := hw.room
  have hrank : ∀ c ∈ cs, 2 * f.depth h + 2 ≤ f.spacious h c := fun c hc => (hw.children c hc).2
  have hstart : Releasing (f.spacious h) (2 * f.depth h + 2) f (f, []) :=
    ⟨hw.wellFormed.spacious h, .refl f, rfl, by simp⟩
  obtain ⟨⟨f₁, released⟩, he₁, hf₁, hk₁, hs₁, hr⟩ := foldlM_invariant
    (fun s hs c hc => release_keeps hs (hw.children c hc).1 (hrank c hc)) hstart
  obtain ⟨f', he, hf', -⟩ := gatherEach_keeps .group
    (fun k => (released.filter (·.1 = k)).map (·.2)) Category.all (fun _ => rfl) hf₁
    (hk₁.room hw.room) (fun x hx => hw.lt_new (hs₁ ▸ hx)) fun k c hc => by
      obtain ⟨x, hx, rfl⟩ := List.mem_map.mp hc
      obtain ⟨hloose, hb⟩ := hr x (List.mem_filter.mp hx).1
      exact ⟨hloose, fun y hy => by rw [spacious_new (hs₁ ▸ hy)]; exact hb⟩
  simp only [groupIn, isGroup, kind_of_look hn, bind, Except.bind, pure, Except.pure]
  split
  · exact ⟨f, rfl, hw.wellFormed⟩
  · refine ⟨f', ?_, hf'.wellFormed⟩
    simp only [he₁]
    exact he

theorem exists_sortKey (hf : Ranked f.look ρ) (hm : f.look c = some m) : ∃ k, f.sortKey c = .ok k := by
  simp only [sortKey, kind_of_look hm, bind, Except.bind]
  split
  · exact ⟨_, rfl⟩
  · next labels left right hk =>
      have hside : parentIn f.look left = some c := by
        apply hf.parentIn_side hm
        rw [hk]
        exact List.mem_cons_self
      obtain ⟨k, hleft, -⟩ := Option.bind_eq_some_iff.mp hside
      rw [kind_of_look hleft]
      exact ⟨_, rfl⟩
  · exact ⟨_, rfl⟩

theorem sortIn_wellFormed (hf : f.WellFormed) (hn : f.look h = some n)
    (hknown : ∀ c ∈ n.children, ∃ m, f.look c = some m) :
    ∃ f', sortIn f h n.children = .ok f' ∧ f'.WellFormed := by
  have hmarker : ∀ c ∈ n.children, ∃ b, f.isMarker c = .ok b := by
    intro c hc
    obtain ⟨m, hm⟩ := hknown c hc
    exact ⟨_, by rw [isMarker, kind_of_look hm]; rfl⟩
  have hkey : ∀ c ∈ n.children, ∃ k, f.sortKey c = .ok k := by
    intro c hc
    obtain ⟨m, hm⟩ := hknown c hc
    exact exists_sortKey hf.ranked hm
  obtain ⟨markers, hmarkers⟩ := exists_mapM hmarker
  obtain ⟨keyed, hkeyed, hsnd⟩ : ∃ keyed, (n.children.mapM fun c => return (← f.sortKey c, c)) =
      .ok keyed ∧ keyed.map (·.2) = n.children :=
    exists_mapM_paired _ (fun k c => (k, c)) (fun _ _ => rfl) hkey
  rw [sortIn, hmarkers]
  change ∃ f', (if markers.any id = true then Except.ok f else do
    f.reorder h ((sortBy (fun a b => a.1.le b.1)
      (← n.children.mapM fun c => return (← f.sortKey c, c))).map (·.2))) = .ok f' ∧ _
  rw [hkeyed]
  split
  · exact ⟨f, rfl, hf⟩
  · have hperm : ((sortBy (fun a b => a.1.le b.1) keyed).map (·.2)).Perm n.children := by
      rw [← hsnd]
      exact (perm_sortBy _ _).map _
    obtain ⟨f', he, -, hl⟩ := update_spec hn fun n =>
      { n with children := (sortBy (fun a b => a.1.le b.1) keyed).map (·.2) }
    have hf' : Ranked f'.look f.depth := hl ▸ hf.ranked.reorder hn hperm
    exact ⟨f', he, hf'.wellFormed⟩

/-- Every pass can work on every container of a well-formed forest, which stays well-formed. -/
theorem change_wellFormed (p : Pass) (hf : f.WellFormed) (hn : f.look h = some n)
    (hc : n.kind.isContainer = true) : ∃ f', p.change f h n.children = .ok f' ∧ f'.WellFormed := by
  have hw := hf.worked hn hc
  cases p with
  | nestSingletons => exact nestSingletonsIn_wellFormed hw
  | nestVisibilities => exact nestVisibilitiesIn_wellFormed hw
  | group => exact groupIn_wellFormed hw
  | sort => exact sortIn_wellFormed hf hn fun c hc => (hw.children c hc).1.known

end Reconcile.Forest
