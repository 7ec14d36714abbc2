import Reconcile.Proofs.Forest.Relocation

namespace Reconcile

open Function (update_apply update_idem update_of_ne update_self)

/-- Where a node stands among the children of its container. -/
structure Stands (look : Handle → Option Node) (c : Handle) (m : Node) (p : Handle) (n : Node)
    (before after : List Handle) : Prop where
  child : look c = some m
  parent : m.parent = some p
  container : look p = some n
  room : n.kind.isContainer = true
  children : n.children = before ++ c :: after

variable {look : Handle → Option Node} {ρ : Handle → Nat} {h p c q k a b : Handle} {n m w : Node}
  {before after : List Handle}

namespace Ranked

theorem not_mem_siblings (hf : Ranked look ρ) (hs : Stands look c m p n before after) :
    c ∉ before ∧ c ∉ after := by
  have hd := hf.nodup_children hs.container
  rw [hs.children, List.nodup_middle, List.nodup_cons, List.mem_append, not_or] at hd
  exact hd.1

theorem ne_root (hf : Ranked look ρ) (hc : look c = some m) (hm : m.parent = some p) :
    c ≠ Forest.root := by
  rintro rfl
  obtain ⟨r, hr, -, hnone⟩ := hf.root
  cases hc.symm.trans hr
  cases hm.symm.trans hnone

theorem ne_root_of_none (hf : Ranked look ρ) (hk : look k = none) : k ≠ Forest.root := by
  rintro rfl
  obtain ⟨r, hr, -⟩ := hf.root
  cases hk.symm.trans hr

theorem replace (hf : Ranked look ρ) (hs : Stands look c m p n before after) (hq : look q = some w)
    (hw : w.parent = none) (hroot : q ≠ Forest.root) (hρ : ρ p < ρ q) :
    Ranked (Function.update (Function.update (Function.update look c
      (some { m with parent := none })) p (some { n with children := before ++ q :: after })) q
      (some { w with parent := some p })) ρ := by
  have hqc : q ≠ c := by
    rintro rfl
    cases hq.symm.trans hs.child
    cases hw.symm.trans hs.parent
  have hqp : q ≠ p := by
    rintro rfl
    exact Nat.lt_irrefl _ hρ
  have hf₁ := hf.detach hs.child hs.parent hs.container hs.room
  rw [hs.children, Forest.filter_middle (hf.not_mem_siblings hs).1 (hf.not_mem_siblings hs).2] at hf₁
  have hperm : (before ++ q :: after).Perm (q :: (before ++ after)) := List.perm_middle
  have hf₂ := hf₁.insert (update_self ..) hs.room (by rw [update_of_ne hqp, update_of_ne hqc, hq]) hw
    hroot hρ hperm
  rwa [update_idem] at hf₂

theorem wrapHeaders (hf : Ranked look ρ) (labels : Labels) (hs : Stands look c m p n before after)
    (hq : look q = some w) (hw : w.parent = none) (hroot : q ≠ Forest.root) (hk : look k = none)
    (hρ : ρ p < ρ k) (hρc : ρ k < ρ c) (hρq : ρ k < ρ q)
    (hsc : m.kind.canBeSideOf (.conflict .headers labels c q) = true)
    (hsq : w.kind.canBeSideOf (.conflict .headers labels c q) = true) :
    Ranked (Function.update (Function.update (Function.update (Function.update look p
      (some { n with children := before ++ k :: after })) k
      (some ⟨.conflict .headers labels c q, {}, some p, []⟩)) c
      (some { m with parent := some k })) q (some { w with parent := some k })) ρ := by
  have hqc : q ≠ c := by
    rintro rfl
    cases hq.symm.trans hs.child
    cases hw.symm.trans hs.parent
  have hqp : q ≠ p := by
    rintro rfl
    omega
  have hpc := hf.ne_parent hs.child hs.parent
  have hkc : k ≠ c := by
    rintro rfl
    cases hk.symm.trans hs.child
  have hkp : k ≠ p := by
    rintro rfl
    cases hk.symm.trans hs.container
  have hkq : k ≠ q := by
    rintro rfl
    cases hk.symm.trans hq
  -- The scope leaves its place, becomes a side, and the conflict takes the place.
  obtain ⟨look₁, hl₁⟩ : ∃ look₁, look₁ = Function.update (Function.update look c
    (some { m with parent := none })) p (some { n with children := before ++ after }) := ⟨_, rfl⟩
  have hf₁ : Ranked look₁ ρ := by
    have hf₁ := hf.detach hs.child hs.parent hs.container hs.room
    rwa [hs.children, Forest.filter_middle (hf.not_mem_siblings hs).1 (hf.not_mem_siblings hs).2,
      ← hl₁] at hf₁
  have hk₁ : look₁ k = none := by simp [hl₁, hkp, hkc, hk]
  have hc₁ : look₁ c = some { m with parent := none } := by simp [hl₁, hpc.symm]
  have hq₁ : look₁ q = some w := by simp [hl₁, hqp, hqc, hq]
  have hp₁ : look₁ p = some { n with children := before ++ after } := by simp [hl₁]
  obtain ⟨look₂, hl₂⟩ : ∃ look₂, look₂ = Function.update (Function.update (Function.update look₁ k
    (some ⟨.conflict .headers labels c q, {}, none, []⟩)) c (some { m with parent := some k })) q
    (some { w with parent := some k }) := ⟨_, rfl⟩
  have hf₂ : Ranked look₂ ρ := hl₂ ▸ hf₁.oppose hk₁ hc₁ hq₁ rfl hw hqc.symm
    (hf.ne_root hs.child hs.parent) hroot hρc hρq .headers labels {} hsc hsq
  have hk₂ : look₂ k = some ⟨.conflict .headers labels c q, {}, none, []⟩ := by simp [hl₂, hkq, hkc]
  have hp₂ : look₂ p = some { n with children := before ++ after } := by
    simp [hl₂, hqp.symm, hpc, hkp.symm, hp₁]
  have hperm : (before ++ k :: after).Perm (k :: (before ++ after)) := List.perm_middle
  have hf₃ := hf₂.insert hp₂ hs.room hk₂ rfl (hf.ne_root_of_none hk) hρ hperm
  convert hf₃ using 1
  rw [hl₂, hl₁]
  funext x
  simp only [update_apply]
  grind

theorem wrapDeclarations (hf : Ranked look ρ) (labels : Labels)
    (hs : Stands look c m p n before after) (ha : look a = none) (hb : look b = none)
    (hk : look k = none) (hab : a ≠ b) (hak : a ≠ k) (hbk : b ≠ k)
    (hρ : ρ p < ρ k) (hρa : ρ k < ρ a) (hρb : ρ k < ρ b) (hρc : ρ a < ρ c) :
    Ranked (Function.update (Function.update (Function.update (Function.update
      (Function.update look p (some { n with children := before ++ k :: after })) k
      (some ⟨.conflict .declarations labels a b, {}, some p, []⟩)) a
      (some ⟨.plain .tree, {}, some k, [c]⟩)) b (some ⟨.plain .tree, {}, some k, []⟩)) c
      (some { m with parent := some a })) ρ := by
  have hpc := hf.ne_parent hs.child hs.parent
  have new {x y : Handle} {w : Node} (hx : look x = none) (hy : look y = some w) : x ≠ y := by
    rintro rfl
    cases hx.symm.trans hy
  -- An empty conflict is made, takes the place of the node, and takes in the node.
  obtain ⟨look₁, hl₁⟩ : ∃ look₁, look₁ = Function.update (Function.update look a
    (some ⟨.plain .tree, {}, none, []⟩)) b (some ⟨.plain .tree, {}, none, []⟩) := ⟨_, rfl⟩
  have hf₁ : Ranked look₁ ρ := by
    rw [hl₁]
    exact (hf.create ha .tree {}).create (by rw [update_of_ne hab.symm, hb]) .tree {}
  have hk₁ : look₁ k = none := by simp [hl₁, hak.symm, hbk.symm, hk]
  have ha₁ : look₁ a = some ⟨.plain .tree, {}, none, []⟩ := by simp [hl₁, hab]
  have hb₁ : look₁ b = some ⟨.plain .tree, {}, none, []⟩ := by simp [hl₁]
  have hold₁ {x : Handle} {w : Node} (hx : look x = some w) : look₁ x = some w := by
    simp [hl₁, (new ha hx).symm, (new hb hx).symm, hx]
  obtain ⟨look₂, hl₂⟩ : ∃ look₂, look₂ = Function.update (Function.update (Function.update look₁ k
    (some ⟨.conflict .declarations labels a b, {}, none, []⟩)) a
    (some ⟨.plain .tree, {}, some k, []⟩)) b (some ⟨.plain .tree, {}, some k, []⟩) := ⟨_, rfl⟩
  have hf₂ : Ranked look₂ ρ := hl₂ ▸ hf₁.oppose hk₁ ha₁ hb₁ rfl rfl hab (hf.ne_root_of_none ha)
    (hf.ne_root_of_none hb) hρa hρb .declarations labels {} rfl rfl
  have hk₂ : look₂ k = some ⟨.conflict .declarations labels a b, {}, none, []⟩ := by
    simp [hl₂, hak.symm, hbk.symm]
  have hold₂ {x : Handle} {w : Node} (hx : look x = some w) : look₂ x = some w := by
    simp [hl₂, (new ha hx).symm, (new hb hx).symm, (new hk hx).symm, hold₁ hx]
  have hs₂ : Stands look₂ c m p n before after :=
    ⟨hold₂ hs.child, hs.parent, hold₂ hs.container, hs.room, hs.children⟩
  obtain ⟨look₃, hl₃⟩ : ∃ look₃, look₃ = Function.update (Function.update (Function.update look₂ c
    (some { m with parent := none })) p (some { n with children := before ++ k :: after })) k
    (some ⟨.conflict .declarations labels a b, {}, some p, []⟩) := ⟨_, rfl⟩
  have hf₃ : Ranked look₃ ρ := hl₃ ▸ hf₂.replace hs₂ hk₂ rfl (hf.ne_root_of_none hk) hρ
  have hac := new ha hs.child
  have hbc := new hb hs.child
  have hkc := new hk hs.child
  have hap := new ha hs.container
  have hbp := new hb hs.container
  have hkp := new hk hs.container
  have ha₃ : look₃ a = some ⟨.plain .tree, {}, some k, []⟩ := by simp [hl₃, hl₂, hak, hap, hac, hab]
  have hc₃ : look₃ c = some { m with parent := none } := by simp [hl₃, hkc.symm, hpc.symm]
  have hf₄ := hf₃.insert ha₃ rfl hc₃ rfl (hf.ne_root hs.child hs.parent) hρc (.refl [c])
  convert hf₄ using 1
  rw [hl₃, hl₂, hl₁]
  funext x
  simp only [update_apply]
  grind

end Ranked

structure Extends (f f' : Forest) (c : Handle) : Prop where
  size : f.size ≤ f'.size
  node : ∀ h n, f.look h = some n →
    ∃ m, f'.look h = some m ∧ m.kind.shape = n.kind.shape ∧ (h ≠ c → m.parent = n.parent)

namespace Extends

variable {f f' f'' : Forest}

theorem trans (h : Extends f f' c) (h' : Extends f' f'' c) : Extends f f'' c := by
  refine ⟨Nat.le_trans h.size h'.size, ?_⟩
  intro x n hn
  obtain ⟨m, hm, hk, hp⟩ := h.node x n hn
  obtain ⟨m', hm', hk', hp'⟩ := h'.node x m hm
  exact ⟨m', hm', hk'.trans hk, fun hx => (hp' hx).trans (hp hx)⟩

theorem of_new (h : Extends f f' c) (hc : f.size ≤ c) (d : Handle) : Extends f f' d := by
  refine ⟨h.size, ?_⟩
  intro x n hn
  obtain ⟨m, hm, hk, hp⟩ := h.node x n hn
  exact ⟨m, hm, hk, fun _ => hp (Nat.ne_of_lt (Nat.lt_of_lt_of_le (Forest.look_lt hn) hc))⟩

end Extends

theorem Shifts.extended {f f' : Forest} {parent : Option Handle} (hs : Shifts ρ f f' c parent) :
    Extends f f' c := by
  refine ⟨Nat.le_of_eq hs.size.symm, ?_⟩
  intro x m hm
  have hkind := hs.kind x
  have hparent := hs.parent x
  rw [kindIn, kindIn, hm, Option.map_some] at hkind
  obtain ⟨m', hm', hk'⟩ := Option.map_eq_some_iff.mp hkind
  refine ⟨m', hm', by rw [hk'], fun hx => ?_⟩
  rw [parentIn_of_look hm', parentIn_of_look hm, if_neg hx] at hparent
  exact hparent

namespace Forest

variable {f f₁ : Forest} {content : Content} {notes : Notes}

theorem WellFormed.create (hf : f.WellFormed) (he : f.create (.plain content) notes = (f₁, q)) :
    f₁.WellFormed ∧ Extends f f₁ c := by
  obtain ⟨f', he', hs, hl⟩ := create_spec f (.plain content) notes
  cases he.symm.trans he'
  have hf' : Ranked f₁.look f.depth := hl ▸ hf.ranked.create (look_none (Nat.le_refl _)) content notes
  refine ⟨hf'.wellFormed, by omega, ?_⟩
  intro h n hn
  exact ⟨n, look_created he hn, rfl, fun _ => rfl⟩

theorem WellFormed.amend (hf : f.WellFormed) (hn : f.look h = some n) {g : Node → Node}
    (hk : (g n).kind.shape = n.kind.shape) (hp : (g n).parent = n.parent)
    (hcs : (g n).children = n.children) :
    ∃ f', f.update h g = .ok f' ∧ f'.WellFormed ∧ Extends f f' c := by
  obtain ⟨f', he, hs, hl⟩ := update_spec hn g
  have hg : g n = { n with kind := (g n).kind, notes := (g n).notes } := by
    rw [← hp, ← hcs]
  have hf' : Ranked f'.look f.depth := by
    rw [hl, hg]
    exact hf.ranked.amend hn hk _
  refine ⟨f', he, hf'.wellFormed, Nat.le_of_eq hs.symm, ?_⟩
  rw [hl]
  grind

theorem WellFormed.append (hf : f.WellFormed) (hn : f.look p = some n)
    (hroom : n.kind.isContainer = true) (content : Content) (notes : Notes) :
    ∃ f', f.append p content notes = .ok (f', f.size) ∧ f'.WellFormed ∧ Extends f f' c ∧
      f'.look f.size = some ⟨.plain content, notes, some p, []⟩ := by
  obtain ⟨f', he, hs, hl⟩ := append_spec hn hroom content notes
  obtain ⟨f'', he', hf', -⟩ := append_keeps (hf.ranked_new Nat.one_pos fun _ => f.depth p + 1)
    ⟨n, hn, hroom⟩ (by simp [look_lt hn]) content notes
  cases he.symm.trans he'
  refine ⟨f', he, hf'.wellFormed, ⟨by omega, ?_⟩, by rw [hl, update_self]⟩
  have hnew : ∀ x m, f.look x = some m → x ≠ f.size := fun x m hm => Nat.ne_of_lt (look_lt hm)
  rw [hl]
  grind

theorem WellFormed.attach_leaf (hf : f.WellFormed) (ht : HasRoom f.look p) {l : Leaf}
    (hn : f.look h = some n) (hk : n.kind = .plain (.leaf l)) (hp : n.parent = none) :
    ∃ f', f.attach p h = .ok f' ∧ f'.WellFormed ∧ Extends f f' h := by
  obtain ⟨w, hw, hroom⟩ := ht
  have hbelow : n.below = [] := by
    have hholds := hf.ranked.holds h n hn
    rw [hk] at hholds
    simpa [Node.below, hk, Kind.sides, Kind.isContainer, Content.isContainer] using hholds
  have hhp : p ≠ h := by
    rintro rfl
    cases hn.symm.trans hw
    rw [hk] at hroom
    cases hroom
  have hloose : Loose f.look h := by
    refine ⟨?_, ⟨n, hn⟩, ?_⟩
    · rintro rfl
      obtain ⟨r, hr, hkind, -⟩ := hf.root
      cases hn.symm.trans hr
      cases hk.symm.trans hkind
    · intro q hq
      rw [parentIn_of_look hn, hp] at hq
      cases hq
  have hf₁ : Ranked f.look fun x => if x = h then f.depth p + 1 else f.depth x := by
    apply hf.ranked.spread Nat.one_pos
    intro x hx
    rw [if_neg, Nat.one_mul]
    rintro rfl
    exact hx (.of_look hn hp hbelow)
  obtain ⟨f', he, hs⟩ := attach_shifts hf₁ ⟨w, hw, hroom⟩ hloose (by simp [hhp])
  exact ⟨f', he, hs.ranked.wellFormed, hs.extended⟩

theorem WellFormed.exists_stands (hf : f.WellFormed) (hm : f.look c = some m)
    (hp : m.parent = some p) (hn : f.look p = some n) (hroom : n.kind.isContainer = true) :
    ∃ before after, Stands f.look c m p n before after := by
  obtain ⟨before, after, hcs⟩ := List.append_of_mem ((hf.ranked.child_iff hn hroom hm).mpr hp)
  exact ⟨before, after, hm, hp, hn, hroom, hcs⟩

theorem WellFormed.replace_leaf (hf : f.WellFormed) (hs : Stands f.look c m p n before after)
    {l : Leaf} (he : f.create (.plain (.leaf l)) notes = (f₁, q)) :
    ∃ f', f₁.replace c q = .ok f' ∧ f'.WellFormed ∧ Extends f f' c ∧
      f'.look q = some ⟨.plain (.leaf l), notes, some p, []⟩ := by
  obtain ⟨f₀, he₀, hs₀, hl₀⟩ := create_spec f (.plain (.leaf l)) notes
  cases he.symm.trans he₀
  have hnone : f.look f.size = none := look_none (Nat.le_refl _)
  have hps : p ≠ f.size := Nat.ne_of_lt (look_lt hs.container)
  have hcs : c ≠ f.size := Nat.ne_of_lt (look_lt hs.child)
  have hs₁ : Stands f₁.look c m p n before after :=
    ⟨look_created he hs.child, hs.parent, look_created he hs.container, hs.room, hs.children⟩
  have hf₁ := (hf.ranked_new Nat.one_pos fun _ => f.depth p + 1).create hnone (.leaf l) notes
  rw [← hl₀] at hf₁
  have hnew : f₁.look f.size = some ⟨.plain (.leaf l), notes, none, []⟩ := by rw [hl₀, update_self]
  obtain ⟨hb, ha⟩ := hf₁.not_mem_siblings hs₁
  obtain ⟨f₂, he₂, hs₂, hl₂⟩ := replace_spec hs₁.child hs.parent hs₁.container hs.room hs.children hb ha
    hnew rfl (hf.ranked.ne_parent hs.child hs.parent) hps hcs.symm
  have hf₂ := hf₁.replace hs₁ hnew rfl (hf.ranked.ne_root_of_none hnone)
    (by simp [look_lt hs.container])
  rw [← hl₂] at hf₂
  refine ⟨f₂, he₂, hf₂.wellFormed, ⟨by omega, ?_⟩, by rw [hl₂, update_self]⟩
  have hold : ∀ x w, f.look x = some w → x ≠ f.size := fun x w hw => Nat.ne_of_lt (look_lt hw)
  have hc := hs.child
  have hp := hs.container
  rw [hl₂, hl₀]
  grind

theorem WellFormed.wrapHeaders_look (hf : f.WellFormed) (hs : Stands f.look c m p n before after)
    (hq : f.look q = some w) (hw : w.parent = none) (hup : q ∉ f.lineage c) (labels : Labels)
    (hsc : m.kind.canBeSideOf (.conflict .headers labels c q) = true)
    (hsq : w.kind.canBeSideOf (.conflict .headers labels c q) = true) :
    ∃ f', f.wrapHeaders c q labels = .ok (f', f.size) ∧ f'.WellFormed ∧ f'.size = f.size + 1 ∧
      f'.look = Function.update (Function.update (Function.update (Function.update f.look p
        (some { n with children := before ++ f.size :: after })) f.size
        (some ⟨.conflict .headers labels c q, {}, some p, []⟩)) c
        (some { m with parent := some f.size })) q (some { w with parent := some f.size }) := by
  have hparent := (parentIn_of_look hs.child).trans hs.parent
  have hapart := hup
  rw [hf.lineage_parentIn hparent, List.mem_cons, not_or] at hapart
  obtain ⟨hqc, hqp⟩ := hapart
  have hpq : p ≠ q := by
    rintro rfl
    exact hqp List.mem_cons_self
  have hroot : q ≠ Forest.root := by
    rintro rfl
    obtain ⟨r, hr, hk, -⟩ := hf.root
    cases hq.symm.trans hr
    rw [hk] at hsq
    cases hsq
  -- There is room for the conflict above both of its sides.
  have hρ := ranked_extend (hf.ranked_raised q (f.depth p + 1)) Nat.two_pos fun _ => 2 * f.depth p + 1
  have hself : q ∈ f.lineage q := List.mem_cons_self
  have hdepth := hf.depth_parentIn hparent
  obtain ⟨hb, ha⟩ := hρ.not_mem_siblings hs
  obtain ⟨f', he, hs', hl⟩ := wrapHeaders_spec labels hs.child hs.parent hs.container hs.room
    hs.children hb ha hq hw (hf.ranked.ne_parent hs.child hs.parent) hpq hqc
  have hf' := hρ.wrapHeaders labels hs hq hw hroot (look_none (Nat.le_refl _))
    (by simp [look_lt hs.container, raised, hqp])
    (by simp [look_lt hs.child, raised, hup, hdepth]; omega)
    (by simp [look_lt hq, raised, hself]; omega) hsc hsq
  rw [← hl] at hf'
  exact ⟨f', he, hf'.wellFormed, hs', hl⟩

theorem WellFormed.wrapHeaders (hf : f.WellFormed) (hs : Stands f.look c m p n before after)
    {sc : Scope} (hm : m.kind.shape = .plain (.scope .singleton))
    (he : f.create (.plain (.scope sc)) notes = (f₁, q)) (labels : Labels) :
    ∃ f' k, f₁.wrapHeaders c q labels = .ok (f', k) ∧ f'.WellFormed ∧ Extends f f' c ∧
      f₁.size ≤ f'.size ∧ parentIn f'.look c = some k ∧
      f'.look k = some ⟨.conflict .headers labels c q, {}, some p, []⟩ := by
  obtain ⟨f₀, he₀, hs₀, hl₀⟩ := create_spec f (.plain (.scope sc)) notes
  cases he.symm.trans he₀
  have hf₁ : f₁.WellFormed := (hf.create (c := c) he).1
  have hs₁ : Stands f₁.look c m p n before after :=
    ⟨look_created he hs.child, hs.parent, look_created he hs.container, hs.room, hs.children⟩
  have hnew : f₁.look f.size = some ⟨.plain (.scope sc), notes, none, []⟩ := by rw [hl₀, update_self]
  have hside : m.kind.canBeSideOf (.conflict .headers labels c f.size) = true := by
    rw [← Kind.canBeSideOf_shape, hm]
    rfl
  obtain ⟨up, hup⟩ := hf₁.exists_ancestors hs₁.child
  have habove : f.size ∉ f₁.lineage c := by
    have hbare : f.size ∉ up := by
      refine hf₁.not_mem_ancestors hup hs₁.child fun y hy => ?_
      rw [hf₁.ranked.links, belowIn_of_look hnew] at hy
      cases hy
    simpa [lineage, hup, Except.toOption, hbare] using (Nat.ne_of_lt (look_lt hs.child)).symm
  obtain ⟨f₂, he₂, hf₂, hs₂, hl₂⟩ := hf₁.wrapHeaders_look hs₁ hnew rfl habove labels hside rfl
  have hold : ∀ x w, f.look x = some w → x ≠ f.size ∧ x ≠ f₁.size := by
    intro x w hw
    rw [hs₀]
    exact ⟨Nat.ne_of_lt (look_lt hw), Nat.ne_of_lt (Nat.lt_succ_of_lt (look_lt hw))⟩
  have hc := hs.child
  have hp := hs.container
  refine ⟨f₂, f₁.size, he₂, hf₂, ⟨by omega, ?_⟩, by omega, ?_, ?_⟩
  · rw [hl₂, hl₀]
    grind
  · rw [hl₂, parentIn]
    grind
  · rw [hl₂]
    grind

theorem WellFormed.wrapDeclarations (hf : f.WellFormed) (hs : Stands f.look c m p n before after)
    (labels : Labels) :
    ∃ f' k a b, f.wrapDeclarations c labels = .ok (f', k) ∧ f'.WellFormed ∧ Extends f f' c ∧
      f'.look k = some ⟨.conflict .declarations labels a b, {}, some p, []⟩ ∧
      f'.look a = some ⟨.plain .tree, {}, some k, [c]⟩ ∧ parentIn f'.look c = some a := by
  have hf₁ := hf.ranked_new (show 0 < 3 by omega) fun x =>
    if x = f.size + 2 then 3 * f.depth p + 1 else 3 * f.depth p + 2
  have hdepth := hf.depth_child hs.child hs.parent
  obtain ⟨hb, ha⟩ := hf₁.not_mem_siblings hs
  obtain ⟨f₂, he₂, hs₂, hl₂⟩ := wrapDeclarations_spec labels hs.child hs.parent hs.container hs.room
    hs.children hb ha (hf.ranked.ne_parent hs.child hs.parent)
  have hlt : ¬ f.size + 1 < f.size := by omega
  have hlt' : ¬ f.size + 2 < f.size := by omega
  have hf₂ := hf₁.wrapDeclarations labels hs (look_none (Nat.le_refl f.size))
    (look_none (Nat.le_add_right f.size 1)) (look_none (Nat.le_add_right f.size 2)) (by simp) (by simp) (by simp)
    (by simp [look_lt hs.container, hlt']) (by simp [hlt']) (by simp [hlt, hlt'])
    (by simp [look_lt hs.child, hdepth]; omega)
  rw [← hl₂] at hf₂
  have hold : ∀ x w, f.look x = some w → x ≠ f.size ∧ x ≠ f.size + 1 ∧ x ≠ f.size + 2 := by
    intro x w hw
    have hx := look_lt hw
    exact ⟨Nat.ne_of_lt hx, Nat.ne_of_lt (Nat.lt_add_right 1 hx), Nat.ne_of_lt (Nat.lt_add_right 2 hx)⟩
  have hc := hs.child
  have hp := hs.container
  refine ⟨f₂, f.size + 2, f.size, f.size + 1, he₂, hf₂.wellFormed, ⟨by omega, ?_⟩, ?_, ?_, ?_⟩
  · rw [hl₂]
    grind
  · rw [hl₂]
    grind
  · rw [hl₂]
    grind
  · rw [hl₂, parentIn]
    grind

end Forest

end Reconcile
