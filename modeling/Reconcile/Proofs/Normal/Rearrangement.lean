import Reconcile.Proofs.Normal.Attendance

namespace Reconcile

open Forest Outline

/-- From the forest `f` to the forest `g`, of which `o` and `o'` are what can be reached, nodes move
into added containers and out of nothing else. -/
structure Forest.Rearranges (f g : Forest) (o o' : Outline) : Prop where
  once : o'.handles.Nodup
  kept : ∀ h ∈ o.handles, h ∈ o'.handles
  node : ∀ h ∈ o.handles, ∀ n ∈ f.look h,
    ∃ m ∈ g.look h, m.kind = n.kind.clearSingleton ∧ m.notes = n.notes
  added : ∀ h ∈ o'.handles, h ∉ o.handles → g.IsAdded f.size h
  /-- The first one of the nodes above that is not new is the parent from before. -/
  parent : ∀ h ∈ o.handles, ∀ n ∈ f.look h,
    ∃ up, g.ancestors h = .ok up ∧ up.find? (· < f.size) = n.parent
  /-- The members of a steady category are met in the order in which they were listed. -/
  order : ∀ h ∈ o.handles, ∀ n ∈ f.look h, ∀ k ∈ Category.steady,
    (f.leavesAmong k n.children).Sublist o'.handles

variable {f g : Forest} {o o' : Outline} {parent : Option Handle} {h : Handle} {n : Node} {i : Bool}
  {N : Nat} {φ : Handle → Handle}

namespace Kind

@[simp] theorem sides_clearSingleton (k : Kind) : k.clearSingleton.sides = k.sides := by
  unfold clearSingleton
  split
  · rfl
  · rfl

theorem clearSingleton_of_not {k : Kind} (hk : k.isSingletonMethod = false) : k.clearSingleton = k := by
  unfold clearSingleton
  split
  · next m =>
      have hm : m.isSingleton = false := hk
      rw [← hm]
  · rfl

end Kind

theorem noSingletons_of_holds (ho : o.Holds g.look parent) (hs : o.sound = true)
    (hk : o.isSingletonMethod = false)
    (hc : (o.rename φ).Everywhere (Children NoSingletons) i) :
    ∀ h ∈ o.handles, ∀ m ∈ g.look h, m.kind.isSingletonMethod = false := by
  have side {form : ConflictForm} {x : Outline} (hx : form.suits x = true) :
      x.isSingletonMethod = false := by
    obtain ⟨h, c, n, cs, rfl, hc⟩ := container_of_suits hx
    cases c with
    | leaf => cases hc
    | _ => rfl
  induction o generalizing parent i with
  | node h c n cs ih =>
      rw [holds_node] at ho
      rw [sound_node] at hs
      rw [handles_node, List.forall_mem_cons]
      constructor
      · intro m hm
        cases ho.1.symm.trans hm
        exact hk
      · intro k hm
        obtain ⟨x, hx, hm⟩ := List.mem_flatMap.mp hm
        rw [rename_node, everywhere_node] at hc
        have hcont : c.isContainer = true := by
          apply hs.1.resolve_right
          exact List.ne_nil_of_mem hx
        have hx' := List.mem_map_of_mem (f := rename φ) hx
        refine ih x hx (ho.2 x hx) (hs.2 x hx) ?_ ((hc hcont).2 _ hx') k hm
        rw [← isSingletonMethod_rename φ]
        exact (hc hcont).1 _ hx'
  | conflict h form labels n l r ihl ihr =>
      rw [holds_conflict] at ho
      rw [sound_conflict] at hs
      rw [handles_conflict, List.forall_mem_cons, List.forall_mem_append]
      refine ⟨?_, ihl ho.2.1 hs.2.1 (side hs.1.1) hc.1, ihr ho.2.2 hs.2.2 (side hs.1.2) hc.2⟩
      intro m hm
      cases ho.1.symm.trans hm
      rfl

theorem legible_standing (hf : f.WellFormed) (hn : f.look h = some n) :
    (f.standing h n).Legible := by
  obtain ⟨r, hr, -, hparent⟩ := hf.root
  have hlinked := hf.linked h (look_lt hn) n hn
  have hnot (m : Node) (hm : f.look 0 = some m) : m.parent ≠ some h := by
    cases hm.symm.trans hr
    rw [hparent]
    exact nofun
  constructor
  · intro hm
    obtain ⟨m, hm, hp, -⟩ := hlinked.sides 0 (by simpa [standing] using hm)
    exact hnot m hm hp
  · intro l hl hm
    obtain ⟨k, -, rfl⟩ := List.mem_map.mp hl
    obtain ⟨m, hm, hp⟩ := hlinked.children 0 (List.mem_of_mem_filter hm)
    exact hnot m hm hp

theorem Forest.Shows.faithful (hs : g.Shows o) (hw : g.WellFormed) (hN : 0 < N)
    (hl : ∀ s ∈ (o.rename (settle N)).roster none, s.Legible)
    (hd : (((o.rename (settle N)).roster none).map Standing.handle).Nodup) :
    Faithful g N ((o.rename (settle N)).roster none) o.handles := by
  obtain ⟨holds, nodup, -, hroot, tree⟩ := hs
  cases o with
  | conflict => cases tree
  | node h c n cs =>
      cases tree
      cases hroot
      have hseen : settle N 0 = 0 := settle_of_lt hN
      have hn : ¬(0 = 0 ∧ Content.tree.isFolder = true) := fun hn => by cases hn.2
      rw [holds_node] at holds
      rw [handles_node, List.nodup_cons] at nodup
      rw [rename_node, hseen, roster_node hn] at hl hd ⊢
      rw [List.forall_mem_cons] at hl
      rw [List.map_cons, List.nodup_cons] at hd
      have hanc : g.ancestors 0 = .ok [] := ancestors_of_root holds.1 rfl
      rw [handles_node]
      refine Faithful.cons ⟨List.mem_cons_self, ⟨_, holds.1, rfl, rfl⟩, ⟨[], hanc, rfl⟩, ?_⟩ rfl ?_
      · intro l hm
        exact (lines_sublist hl.1.2 l hm).trans (List.sublist_cons_self _ _)
      · rw [List.flatMap_map] at hl hd ⊢
        apply Faithful.flatMap
        intro x hx
        apply faithful_roster hw (holds.2 x hx) ⟨[], hanc, by simp [hN]⟩
          fun hm => nodup.1 (List.mem_flatMap.mpr ⟨x, hx, hm⟩)
        intro s hs
        have hmem : s ∈ cs.flatMap fun x => roster (some 0) (rename (settle N) x) :=
          List.mem_flatMap.mpr ⟨x, hx, hs⟩
        exact ⟨fun hz => hd.1 (List.mem_map.mpr ⟨s, hmem, hz⟩), hl.2 s hmem⟩

/-- A roster that is kept says that nothing but the order has changed. -/
theorem Forest.Shows.rearranges (hf : f.WellFormed) (hs : f.Shows o) (hw : g.WellFormed)
    (hs' : g.Shows o') (hg : ∀ h ∈ o.handles, ∀ n ∈ f.look h, ∀ k, n.kind ≠ .plain (.group k))
    (hm : ∀ h ∈ o'.handles, ∀ m ∈ g.look h, m.kind.isSingletonMethod = false)
    (hp : ((o'.rename (settle f.size)).roster none).Perm (o.roster none)) :
    f.Rearranges g o o' := by
  obtain ⟨r, hr, hkind, -⟩ := hf.root
  have htree : ∀ h ∈ o.handles, ∀ n ∈ f.look h, h = 0 → n.kind = .plain .tree := by
    rintro h - n hn rfl
    cases hr.symm.trans hn
    exact hkind
  have hroster := roster_of_holds hs.holds htree hg
  have mem {s : Standing} (hm : s ∈ o.roster none) :
      ∃ h ∈ o.handles, ∃ n, f.look h = some n ∧ f.standing h n = s := by
    rw [hroster, List.mem_filterMap] at hm
    obtain ⟨h, hh, hs⟩ := hm
    obtain ⟨n, hn, rfl⟩ := Option.map_eq_some_iff.mp hs
    exact ⟨h, hh, n, hn, rfl⟩
  have hhandles : (o.roster none).map Standing.handle = o.handles := by
    rw [hroster, List.map_filterMap]
    refine (List.filterMap_congr fun h hh => ?_).trans List.filterMap_some
    obtain ⟨n, hn⟩ := hs.holds.known hh
    rw [hn]
    rfl
  have hlegible : ∀ s ∈ (o'.rename (settle f.size)).roster none, s.Legible := by
    intro s hm
    obtain ⟨h, -, n, hn, rfl⟩ := mem (hp.mem_iff.mp hm)
    exact legible_standing hf hn
  have hfaithful := hs'.faithful hw (look_lt hr) hlegible
    ((hp.map Standing.handle).nodup_iff.mpr (hhandles ▸ hs.nodup))
  have hstands : ∀ h ∈ o.handles, ∀ n ∈ f.look h, (f.standing h n).TrueIn g f.size o'.handles := by
    intro h hh n hn
    apply hfaithful.sound
    rw [hp.mem_iff, hroster, List.mem_filterMap]
    exact ⟨h, hh, Option.map_eq_some_iff.mpr ⟨n, hn, rfl⟩⟩
  refine ⟨hs'.nodup, ?_, ?_, ?_, fun h hh n hn => (hstands h hh n hn).holder, ?_⟩
  · intro h hh
    obtain ⟨n, hn⟩ := hs.holds.known hh
    exact (hstands h hh n hn).listed
  · intro h hh n hn
    obtain ⟨m, hm', hk, hnotes⟩ := (hstands h hh n hn).node
    refine ⟨m, hm', ?_, hnotes⟩
    rw [← Kind.clearSingleton_of_not (hm h (hstands h hh n hn).listed m hm')]
    exact hk
  · intro h hh hnot
    refine (hfaithful.complete h hh).resolve_left ?_
    rintro ⟨s, hm, rfl⟩
    obtain ⟨h', hh', n, -, rfl⟩ := mem (hp.mem_iff.mp hm)
    exact hnot hh'
  · intro h hh n hn k hk
    exact (hstands h hh n hn).lines _ (List.mem_map_of_mem hk)

/-- Normalization of a well-formed forest without groups gives all nodes that could be reached, each
of them once and with the mark of singleton methods cleared, below the node that held it before, and
with nothing else around them than added containers. -/
theorem Forest.normalize_rearranges (hf : f.WellFormed) (ho : f.outline root = .ok o)
    (hg : ∀ h ∈ o.handles, ∀ n ∈ f.look h, ∀ k, n.kind ≠ .plain (.group k)) :
    ∃ g o', f.normalize = .ok g ∧ g.outline root = .ok o' ∧ f.Rearranges g o o' := by
  obtain ⟨o₁, hs⟩ := hf.exists_shows
  cases ho.symm.trans hs.outline
  obtain ⟨g, o', he, hs', hseen⟩ :=
    hs.runPassesFrom (fun _ => settle_of_le) (Nat.le_refl f.size) Pass.canonical
  obtain ⟨g₁, he₁, hw⟩ := hf.runPasses Pass.canonical
  cases he.symm.trans he₁
  have hself : o.rename (settle f.size) = o :=
    rename_eq_self fun k hk => settle_of_lt (hs.holds.lt_size hk)
  rw [hself] at hseen
  have hungrouped : o.Ungrouped := everywhere_of_holds hs.holds hg fun _ _ _ _ hcs => hcs
  have hroot : o'.isSingletonMethod = false := by
    have htree := hs'.tree
    cases o' with
    | conflict => rfl
    | node =>
        cases htree
        rfl
  have hcleared : (o'.rename (settle f.size)).Everywhere (Children NoSingletons) false := by
    rw [hseen]
    exact (children_canonical o).imp fun _ _ _ h x hx => (h x hx).1
  refine ⟨g, o', he, hs'.outline, hs.rearranges hf hw hs' hg ?_ ?_⟩
  · exact noSingletons_of_holds hs'.holds hs'.sound hroot hcleared
  · rw [hseen]
    exact hungrouped.perm_roster_canonical none

def Forest.muddled : Forest :=
  ⟨#[{ kind := .plain .tree, children := [1, 11] },
    { kind := .plain (.scope (.classNamed "A" none)), parent := some 0,
      children := [2, 3, 4, 5, 6, 7, 8, 9, 10] },
    { kind := .plain (.leaf (.method { name := "b", isSingleton := true })), parent := some 1 },
    { kind := .plain (.leaf (.mixin ⟨.extension, ["Z"]⟩)), parent := some 1 },
    { kind := .plain (.leaf (.method { name := "a", visibility := .priv })), parent := some 1,
      notes := { comments := ["first"] } },
    { kind := .plain (.leaf (.field ⟨.prop, "z", "String", none⟩)), parent := some 1 },
    { kind := .plain (.leaf (.mixin ⟨.inclusion, ["Y"]⟩)), parent := some 1 },
    { kind := .plain (.leaf (.field ⟨.fixed, "y", "String", none⟩)), parent := some 1 },
    { kind := .plain (.scope .singleton), parent := some 1 },
    { kind := .plain (.leaf (.mixin ⟨.classMethods, ["X"]⟩)), parent := some 1 },
    { kind := .plain (.leaf (.constant "C" "1")), parent := some 1 },
    { kind := .conflict .declarations ⟨"left", "right"⟩ 12 13, parent := some 0 },
    { kind := .plain .tree, parent := some 11, children := [14] },
    { kind := .plain .tree, parent := some 11 },
    { kind := .plain (.leaf (.enumeration ["D"])), parent := some 12 }]⟩

theorem Forest.normalize_rearranges_muddled : Forest.muddled.WellFormed ∧
    ∃ o, Forest.muddled.outline Forest.root = .ok o ∧
      (∀ h ∈ o.handles, ∀ n ∈ Forest.muddled.look h, ∀ k, n.kind ≠ .plain (.group k)) ∧
      ∃ g o', Forest.muddled.normalize = .ok g ∧ g.outline Forest.root = .ok o' ∧
        Forest.muddled.Rearranges g o o' := by
  have hf : Forest.muddled.WellFormed := by decide
  obtain ⟨o, ho⟩ := hf.exists_shows
  have hcategories : ∀ h < Forest.muddled.size, ∀ n ∈ Forest.muddled.look h,
      ∀ k ∈ Category.all, n.kind ≠ .plain (.group k) := by decide
  have hg : ∀ h ∈ o.handles, ∀ n ∈ Forest.muddled.look h, ∀ k, n.kind ≠ .plain (.group k) := by
    intro h _ n hn k
    exact hcategories h (look_lt hn) n hn k (mem_all k)
  exact ⟨hf, o, ho.outline, hg, normalize_rearranges hf ho.outline hg⟩

end Reconcile
