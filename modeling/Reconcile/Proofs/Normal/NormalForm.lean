import Reconcile.Proofs.Normal.Rearrangement
import Reconcile.Proofs.Normal.Shape

namespace Reconcile

open Forest Outline

def Kind.section? : Kind → Option Visibility
  | .plain (.visibilityGroup v) => some v
  | _ => none

def sectionsOf (above : List (Handle × Kind)) : List Visibility :=
  (above.takeWhile fun p => !p.2.isScope).filterMap fun p => p.2.section?

namespace Forest

/-- The visibility groups around a node below the nearest scope, the nearest first. -/
def sectionsAround (f : Forest) (h : Handle) : Except Fault (List Visibility) :=
  return sectionsOf (← f.kinds (← f.ancestors h))

/-- How the node `n` with handle `h` looks after normalization. -/
structure Normalized (f : Forest) (h : Handle) (n : Node) : Prop where
  instanceMethod : n.kind.isSingletonMethod = false
  /-- A method or an attribute is in one visibility group, which is for its own visibility. -/
  sectioned : ∀ v, n.kind.visibility? = some v → f.sectionsAround h = .ok [v]
  /-- A body consists of groups that are not empty, in strict order. -/
  body : n.kind.isContainer = true → (∀ k, n.kind ≠ .plain (.group k)) →
    ∃ ks : List Category, (ks.Pairwise fun k l => k.rank < l.rank) ∧
      List.Forall₂ (fun c k => ∃ m ∈ f.look c, m.kind = .plain (.group k) ∧ m.children ≠ [])
        n.children ks
  member : ∀ k, n.kind = .plain (.group k) → ∀ c ∈ n.children, ∃ m ∈ f.look c, m.kind.category = k
  /-- The members of a group are in order, unless one of them is a visibility marker. -/
  order : ∀ k, n.kind = .plain (.group k) → (∀ c ∈ n.children, f.isMarker c = .ok false) →
    n.children.Pairwise fun c d =>
      ∃ a b, f.sortKey c = .ok a ∧ f.sortKey d = .ok b ∧ a.le b = true

end Forest

variable {f g : Forest} {parent : Option Handle} {above : List (Handle × Kind)} {o o' : Outline}
  {h : Handle} {n : Node} {v : Option Visibility} {i : Bool} {φ : Handle → Handle}
  {P : Bool → Content → List Outline → Prop}

namespace Outline

theorem everywhere_of_rename (hP : ∀ i c cs, P i c (cs.map (rename φ)) → P i c cs)
    (ho : (o.rename φ).Everywhere P i) : o.Everywhere P i := by
  induction o generalizing i with
  | node h c n cs ih =>
      rw [rename_node, everywhere_node] at ho
      rw [everywhere_node]
      intro hc
      exact ⟨hP _ _ _ (ho hc).1, fun x hx => ih x hx ((ho hc).2 _ (List.mem_map_of_mem hx))⟩
  | conflict h form labels n l r ihl ihr => exact ⟨ihl ho.1, ihr ho.2⟩

theorem ungathered_forget (ho : o.Everywhere Ungathered i) : o.forget.Everywhere Ungathered i := by
  induction o generalizing i with
  | node h c n cs ih =>
      rw [everywhere_node] at ho
      rw [forget_node, everywhere_node]
      refine fun hc => ⟨(ho hc).1, fun x hx => ?_⟩
      obtain ⟨y, hy, rfl⟩ := List.mem_map.mp hx
      exact ih y hy ((ho hc).2 y hy)
  | conflict h form labels n l r ihl ihr => exact ⟨ihl ho.1, ihr ho.2⟩

theorem sectioned_of_rename (ho : (o.rename φ).Sectioned v) : o.Sectioned v := by
  induction o generalizing v with
  | node h c n cs ih =>
      rw [rename_node, sectioned_node] at ho
      rw [sectioned_node]
      refine ⟨ho.1, ho.2.1, fun hc x hx => ?_⟩
      exact ih x hx (ho.2.2 hc _ (List.mem_map_of_mem hx))
  | conflict h form labels n l r ihl ihr => exact ⟨ihl ho.1, ihr ho.2⟩

theorem category_rename (φ : Handle → Handle) (o : Outline) :
    (o.rename φ).kind.category = o.kind.category := by
  cases o with
  | node => rw [rename_node]; rfl
  | conflict => rfl

theorem categorized_of_rename {c : Content} {cs : List Outline}
    (hc : Categorized i c (cs.map (rename φ))) : Categorized i c cs := by
  refine ⟨fun hg => ⟨fun x hx => ?_, ?_⟩, fun k hk x hx => ?_⟩
  · obtain ⟨h, k, n, ms, he, hne⟩ := (hc.1 hg).1 _ (List.mem_map_of_mem hx)
    cases x with
    | conflict => cases he
    | node h' c' n' ms' =>
        rw [rename_node, node.injEq] at he
        obtain ⟨-, rfl, rfl, rfl⟩ := he
        exact ⟨h', k, n', ms', rfl, fun hnil => hne (by rw [hnil]; rfl)⟩
  · have hr := (hc.1 hg).2
    rw [List.pairwise_map] at hr
    simpa only [category_rename] using hr
  · rw [← category_rename φ]
    exact hc.2 k hk _ (List.mem_map_of_mem hx)

theorem ranged_of_rename {c : Content} {cs : List Outline} (hc : Ranged i c (cs.map (rename φ))) :
    Ranged i c cs := by
  intro hg hm
  have hr := hc hg (by simpa [List.any_map, Function.comp_def] using hm)
  rw [List.pairwise_map] at hr
  simpa only [sortKey_rename] using hr

theorem exists_of_everywhere (ho : o.Holds g.look parent) (hs : o.sound = true)
    (hP : o.Everywhere P i) (hh : h ∈ o.handles) (hn : g.look h = some n) {c : Content}
    (hk : n.kind = .plain c) (hc : c.isContainer = true) :
    ∃ i cs, P i c cs ∧ cs.map handle = n.children ∧ ∀ x ∈ cs, x.Holds g.look (some h) := by
  induction o generalizing parent i with
  | node h' c' n' cs ih =>
      rw [holds_node] at ho
      rw [sound_node] at hs
      rw [everywhere_node] at hP
      rw [handles_node, List.mem_cons] at hh
      rcases hh with rfl | hh
      · cases ho.1.symm.trans hn
        cases hk
        exact ⟨_, cs, (hP hc).1, rfl, ho.2⟩
      · obtain ⟨x, hx, hh⟩ := List.mem_flatMap.mp hh
        have hc' : c'.isContainer = true := hs.1.resolve_right (List.ne_nil_of_mem hx)
        exact ih x hx (ho.2 x hx) (hs.2 x hx) ((hP hc').2 x hx) hh
  | conflict h' form labels n' l r ihl ihr =>
      rw [holds_conflict] at ho
      rw [sound_conflict] at hs
      rw [handles_conflict, List.mem_cons, List.mem_append] at hh
      rcases hh with rfl | hh | hh
      · cases ho.1.symm.trans hn
        cases hk
      · exact ihl ho.2.1 hs.2.1 hP.1 hh
      · exact ihr ho.2.2 hs.2.2 hP.2 hh

theorem sectionsOf_plain (h : Handle) (c : Content)
    (hc : (Kind.plain c).isVisibilityGroup = true → v = none) (hv : sectionsOf above = v.toList) :
    sectionsOf ((h, .plain c) :: above) = (c.section? v).toList := by
  cases c with
  | scope s => rfl
  | visibilityGroup w =>
      have hnone : sectionsOf above = [] := by rw [hv, hc rfl]; rfl
      change w :: sectionsOf above = [w]
      rw [hnone]
  | tree | group k | leaf l => exact hv

end Outline

theorem Spine.ancestors (hs : Spine g.look parent above) (hw : g.WellFormed)
    (hn : g.look h = some n) (hp : n.parent = parent) : g.ancestors h = .ok (above.map (·.1)) := by
  have hok := hw.chain h (look_lt hn)
  cases hup : g.ancestors h with
  | error e => simp [hup, Except.isOk, Except.toBool] at hok
  | ok up =>
      have hlong := hs.ancestorsWithin hn hp (Nat.lt_succ_self _)
      have hl := ancestorsWithin_mono hlong (Nat.le_max_left _ g.size)
      have hr := ancestorsWithin_mono hup (Nat.le_max_right (above.length + 1) _)
      exact hr.symm.trans hl

theorem Spine.sectionsAround (hs : Spine g.look parent above) (hw : g.WellFormed)
    (hn : g.look h = some n) (hp : n.parent = parent) :
    g.sectionsAround h = .ok (sectionsOf above) := by
  simp only [Forest.sectionsAround, hs.ancestors hw hn hp, hs.kinds, bind, Except.bind]
  rfl

namespace Outline

theorem sections_of_sectioned (hw : g.WellFormed) (ho : o.Holds g.look parent)
    (hs : Spine g.look parent above) (hv : sectionsOf above = v.toList) (hsound : o.sound = true)
    (hsec : o.Sectioned v) :
    ∀ h ∈ o.handles, ∀ n ∈ g.look h, ∀ w, n.kind.visibility? = some w →
      g.sectionsAround h = .ok [w] := by
  induction o generalizing parent above v with
  | node h c n cs ih =>
      rw [holds_node] at ho
      rw [sound_node] at hsound
      rw [sectioned_node] at hsec
      rw [handles_node, List.forall_mem_cons]
      constructor
      · intro m hm w hw'
        cases ho.1.symm.trans hm
        rw [hs.sectionsAround hw ho.1 rfl, hv, hsec.1 w hw']
        rfl
      · intro k hk
        obtain ⟨x, hx, hk⟩ := List.mem_flatMap.mp hk
        have hc : c.isContainer = true := hsound.1.resolve_right (List.ne_nil_of_mem hx)
        have hspine : Spine g.look (some h) ((h, .plain c) :: above) := ⟨rfl, _, ho.1, rfl, hs⟩
        exact ih x hx (ho.2 x hx) hspine (sectionsOf_plain h c hsec.2.1 hv) (hsound.2 x hx)
          (hsec.2.2 hc x hx) k hk
  | conflict h form labels n l r ihl ihr =>
      rw [holds_conflict] at ho
      rw [sound_conflict] at hsound
      rw [handles_conflict, List.forall_mem_cons, List.forall_mem_append]
      have hspine : Spine g.look (some h) ((h, .conflict form labels l.handle r.handle) :: above) :=
        ⟨rfl, _, ho.1, rfl, hs⟩
      refine ⟨?_, ihl ho.2.1 hspine hv hsound.2.1 hsec.1, ihr ho.2.2 hspine hv hsound.2.2 hsec.2⟩
      intro m hm w hw'
      cases ho.1.symm.trans hm
      cases hw'

theorem forall₂_groups {cs : List Outline} (hcs : ∀ x ∈ cs, x.Holds g.look parent)
    (hg : ∀ x ∈ cs, ∃ h k n ms, x = node h (.group k) n ms ∧ ms ≠ []) :
    List.Forall₂ (fun c k => ∃ m ∈ g.look c, m.kind = .plain (.group k) ∧ m.children ≠ [])
      (cs.map handle) (cs.map (·.kind.category)) := by
  rw [List.forall₂_map_left_iff, List.forall₂_map_right_iff, List.forall₂_same]
  intro x hx
  obtain ⟨h, k, n, ms, rfl, hne⟩ := hg x hx
  exact ⟨_, ((holds_node ..).mp (hcs _ hx)).1, rfl, by simpa using hne⟩

/-- What the passes bring about in an outline can be seen in the forest that holds it. -/
theorem Canonical.normalized (hc : (o.rename φ).Canonical) (hw : g.WellFormed) (hs : g.Shows o) :
    ∀ h ∈ o.handles, ∀ n ∈ g.look h, g.Normalized h n := by
  intro h hh n hn
  have hroot : o.isSingletonMethod = false := by
    have htree := hs.tree
    cases o with
    | conflict => rfl
    | node => cases htree; rfl
  have hcat := everywhere_of_rename (fun _ _ _ => categorized_of_rename) hc.categorized
  have hran := everywhere_of_rename (fun _ _ _ => ranged_of_rename) hc.ranged
  refine {
    instanceMethod := noSingletons_of_holds hs.holds hs.sound hroot hc.plain h hh n hn
    sectioned := sections_of_sectioned hw hs.holds (show Spine g.look none [] from rfl) rfl hs.sound
      (sectioned_of_rename hc.sectioned) h hh n hn
    body := fun hcont hng => ?_
    member := fun k hk c hm => ?_
    order := fun k hk hm => ?_ }
  · cases hk : n.kind with
    | conflict => rw [hk] at hcont; cases hcont
    | plain c =>
        rw [hk] at hcont hng
        obtain ⟨_, cs, hc, hcs, hholds⟩ := exists_of_everywhere hs.holds hs.sound hcat hh hn hk hcont
        have hg : isGroup c = false := by
          cases c with
          | group k => exact absurd rfl (hng k)
          | _ => rfl
        obtain ⟨hgroups, hranks⟩ := hc.1 hg
        refine ⟨cs.map (·.kind.category), List.pairwise_map.mpr hranks, ?_⟩
        rw [← hcs]
        exact forall₂_groups hholds hgroups
  · obtain ⟨_, cs, hc, hcs, hholds⟩ := exists_of_everywhere hs.holds hs.sound hcat hh hn hk rfl
    rw [← hcs] at hm
    obtain ⟨x, hx, rfl⟩ := List.mem_map.mp hm
    obtain ⟨m, hm, hkind, -⟩ := (hholds x hx).exists_look
    exact ⟨m, hm, by rw [hkind]; exact hc.2 k rfl x hx⟩
  · obtain ⟨_, cs, hc, hcs, hholds⟩ := exists_of_everywhere hs.holds hs.sound hran hh hn hk rfl
    rw [← hcs] at hm ⊢
    have hmarker : cs.any isMarker = false := by
      rw [List.any_eq_false]
      intro x hx
      have hx' := hm _ (List.mem_map_of_mem hx)
      rw [isMarker_of_holds (hholds x hx)] at hx'
      simpa using hx'
    rw [List.pairwise_map]
    refine (hc rfl hmarker).imp_of_mem fun {x y} hx hy hle => ?_
    exact ⟨_, _, sortKey_of_holds (hholds x hx), sortKey_of_holds (hholds y hy), hle⟩

end Outline

/-- Normalization of a well-formed forest without groups of any sort gives a forest of which every
node that can be reached is in normal form. -/
theorem Forest.normalize_normalized (hf : f.WellFormed) (ho : f.outline root = .ok o)
    (hg : ∀ h ∈ o.handles, ∀ n ∈ f.look h, n.kind.isGrouping = false) :
    ∃ g o', f.normalize = .ok g ∧ g.outline root = .ok o' ∧
      ∀ h ∈ o'.handles, ∃ n ∈ g.look h, g.Normalized h n := by
  obtain ⟨o₁, hs⟩ := hf.exists_shows
  cases ho.symm.trans hs.outline
  obtain ⟨g, o', he, hs', hseen⟩ := hs.runPasses Pass.canonical
  obtain ⟨g₁, he₁, hw⟩ := hf.runPasses Pass.canonical
  cases he.symm.trans he₁
  have hun : o.forget.Everywhere Ungathered false :=
    ungathered_forget <|
      everywhere_of_holds (Q := fun kind => kind.isGrouping = false) hs.holds hg fun _ _ _ hc _ => hc
  have hroot : o.forget.kind.visibility? = none := by
    have htree := hs.tree
    cases o with
    | conflict => rfl
    | node => cases htree; rw [forget_node]; rfl
  have hc := canonical_of_ungathered ((sound_forget o).mpr hs.sound) hroot hun
  rw [← hseen] at hc
  refine ⟨g, o', he, hs'.outline, fun h hh => ?_⟩
  obtain ⟨n, hn⟩ := hs'.holds.known hh
  exact ⟨n, hn, hc.normalized hw hs' h hh n hn⟩

theorem Forest.normalize_normalized_muddled : Forest.muddled.WellFormed ∧
    ∃ o, Forest.muddled.outline Forest.root = .ok o ∧
      (∀ h ∈ o.handles, ∀ n ∈ Forest.muddled.look h, n.kind.isGrouping = false) ∧
      ∃ g o', Forest.muddled.normalize = .ok g ∧ g.outline Forest.root = .ok o' ∧
        ∀ h ∈ o'.handles, ∃ n ∈ g.look h, g.Normalized h n := by
  have hf : Forest.muddled.WellFormed := by decide
  obtain ⟨o, ho⟩ := hf.exists_shows
  have hplain : ∀ h < Forest.muddled.size, ∀ n ∈ Forest.muddled.look h,
      n.kind.isGrouping = false := by decide
  have hg : ∀ h ∈ o.handles, ∀ n ∈ Forest.muddled.look h, n.kind.isGrouping = false :=
    fun h _ n hn => hplain h (look_lt hn) n hn
  exact ⟨hf, o, ho.outline, hg, normalize_normalized hf ho.outline hg⟩

end Reconcile
