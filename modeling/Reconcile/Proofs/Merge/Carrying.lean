import Reconcile.Proofs.Forest.Duplication
import Reconcile.Proofs.Merge.Endurance

namespace Reconcile

open Outline (plug)

def Content.Hosts (q : Handle) (c : Content) : Prop :=
  (∃ s, c = .scope s) ∨ c = .tree ∧ q = Forest.root

namespace Outline

/-- The scope `q`, or the root, has an outline as its child. -/
def Hosts (o : Outline) (q : Handle) (x : Outline) : Prop :=
  ∃ c n cs, .node q c n cs ∈ o.subtrees ∧ x ∈ cs ∧ c.Hosts q

variable {o x y z l r : Outline} {q k : Handle} {path : List Frame}

theorem hosts_node (h : Handle) (c : Content) (n : Notes) (cs : List Outline) :
    (node h c n cs).Hosts q x ↔ (h = q ∧ x ∈ cs ∧ c.Hosts q) ∨ ∃ y ∈ cs, y.Hosts q x := by
  simp only [Hosts, subtrees_node, List.mem_cons, List.mem_flatMap]
  constructor
  · rintro ⟨d, m, ds, heq | ⟨y, hy, hm⟩, hx, hd⟩
    · cases heq
      exact Or.inl ⟨rfl, hx, hd⟩
    · exact Or.inr ⟨y, hy, d, m, ds, hm, hx, hd⟩
  · rintro (⟨rfl, hx, hc⟩ | ⟨y, hy, d, m, ds, hm, hx, hd⟩)
    · exact ⟨c, n, cs, Or.inl rfl, hx, hc⟩
    · exact ⟨d, m, ds, Or.inr ⟨y, hy, hm⟩, hx, hd⟩

@[simp] theorem hosts_conflict (h : Handle) (form : ConflictForm) (labels : Labels) (n : Notes) :
    (conflict h form labels n l r).Hosts q x ↔ l.Hosts q x ∨ r.Hosts q x := by
  simp only [Hosts, subtrees_conflict, List.mem_cons, List.mem_append, reduceCtorEq, false_or]
  grind

@[simp] theorem not_hosts_leaf (h : Handle) (c : Content) (n : Notes) :
    ¬ (node h c n []).Hosts q x := by
  simp [hosts_node]

theorem Hosts.grow {h : Handle} {c : Content} {n m : Notes} {cs : List Outline}
    (hx : (node h c n cs).Hosts q x) (new : List Outline) : (node h c m (cs ++ new)).Hosts q x := by
  rw [hosts_node] at hx ⊢
  rcases hx with ⟨hq, hmem, hc⟩ | ⟨y, hy, hx⟩
  · exact Or.inl ⟨hq, List.mem_append_left _ hmem, hc⟩
  · exact Or.inr ⟨y, List.mem_append_left _ hy, hx⟩

theorem Hosts.within {h : Handle} {c : Content} {n : Notes} {cs : List Outline} (hx : y.Hosts q x)
    (hy : y ∈ cs) : (node h c n cs).Hosts q x :=
  (hosts_node ..).mpr (Or.inr ⟨y, hy, hx⟩)

theorem Hosts.at (path : List Frame) (hx : y.Hosts q x) : (plug path y).Hosts q x := by
  obtain ⟨c, n, cs, hm, h⟩ := hx
  exact ⟨c, n, cs, subtrees_plug path hm, h⟩

theorem Hosts.handles (hx : o.Hosts q x) : x.handles ⊆ o.descendants := by
  induction o with
  | node h c n cs ih =>
      rw [descendants, descendantsOfAll_eq]
      rcases (hosts_node ..).mp hx with ⟨-, hmem, -⟩ | ⟨y, hy, hx⟩
      · exact handles_subset hmem
      · intro k hk
        exact handles_subset hy (List.mem_cons_of_mem _ (ih y hy hx hk))
  | conflict h form labels n l r ihl ihr =>
      intro k hk
      change k ∈ l.handles ++ r.handles
      rcases (hosts_conflict ..).mp hx with hx | hx
      · exact List.mem_append_left _ (List.mem_cons_of_mem _ (ihl hx hk))
      · exact List.mem_append_right _ (List.mem_cons_of_mem _ (ihr hx hk))

theorem Hosts.plug (hk : k ∈ y.handles) (hn : k ∉ x.handles) (hyz : y.Hosts q x → z.Hosts q x)
    (hx : (plug path y).Hosts q x) : (plug path z).Hosts q x := by
  induction path generalizing y z with
  | nil => exact hyz hx
  | cons fr path ih =>
      have hne : x ≠ y := by
        rintro rfl
        exact hn hk
      refine ih ((fr.handles_fill y).mem_iff.mpr (List.mem_append_right _ hk)) ?_ hx
      cases fr with
      | node h c n before after =>
          simp only [Frame.fill, hosts_node, List.mem_append, List.mem_cons, hne, false_or]
          rintro (⟨hq, hmem, hc⟩ | ⟨w, hw | rfl | hw, hwx⟩)
          · exact Or.inl ⟨hq, hmem.imp_right Or.inr, hc⟩
          · exact Or.inr ⟨w, Or.inl hw, hwx⟩
          · exact Or.inr ⟨z, Or.inr (Or.inl rfl), hyz hwx⟩
          · exact Or.inr ⟨w, Or.inr (Or.inr hw), hwx⟩
      | left h form labels n r =>
          simp only [Frame.fill, hosts_conflict]
          exact Or.imp_left hyz

end Outline

namespace Merge

/-- What a step can start from: the root, a scope that has been entered, and what is in the index. -/
def Draft.Refers (P : Draft) (h : Handle) : Prop :=
  h = Forest.root ∨ (∃ x ∈ P.entered, x.1 = h) ∨ ∃ x ∈ P.index.newest, x.2 = h

/-- The scope `q`, or the root, has an outline as its child that no step goes back to. -/
structure Draft.Shelters (P : Draft) (q : Handle) (x : Outline) : Prop where
  hosts : P.outline.Hosts q x
  apart : ∀ h ∈ x.handles, ¬ P.Refers h

variable {o : Options} {s : State} {P Q : Draft} {e : Event} {q h : Handle} {x y C K : Outline}
  {path : List Frame}

namespace Draft

theorem refers_current (P : Draft) : P.Refers P.current := by
  rw [current]
  cases hen : P.entered with
  | nil => exact Or.inl rfl
  | cons a as => exact Or.inr (Or.inl ⟨a, by simp [hen], rfl⟩)

theorem refers_found {key : String} (hu : P.scopeUnder? key = some h) : P.Refers h :=
  Or.inr (Or.inr ⟨_, mem_recent (List.mem_of_find?_eq_some hu), rfl⟩)

theorem refers_previous {keys : List String} {key : String} (hu : P.previous? keys = some (key, h)) :
    P.Refers h :=
  Or.inr (Or.inr ⟨_, (mem_of_previous hu).2, rfl⟩)

theorem Opens.refers {entered : List (Handle × String)} (hen : P.Opens entered)
    (hh : ∃ x ∈ entered, x.1 = h) : P.Refers h := by
  obtain ⟨x, hx, rfl⟩ := hh
  rcases hen x hx with hx | hu
  · exact Or.inr (Or.inl ⟨x, hx, rfl⟩)
  · exact refers_found hu

theorem Alters.refers (ha : P.Alters Q) (hh : Q.Refers h) : P.Refers h ∨ h = P.next := by
  rcases hh with rfl | hen | hi
  · exact Or.inl (Or.inl rfl)
  · cases ha with
    | edited _ _ _ _ _ _ _ _ _ hopens => exact Or.inl (hopens.refers hen)
    | loosened _ _ _ _ hopens => exact Or.inl (hopens.refers hen)
    | kept _ hopens => exact Or.inl (hopens.refers hen)
    | grown _ _ _ _ _ _ _ _ _ _ _ hopens =>
        obtain ⟨z, hz, rfl⟩ := hen
        rcases hopens z hz with hz | ⟨s, -, rfl⟩
        · exact Or.inl (Or.inr (Or.inl ⟨z, hz, rfl⟩))
        · exact Or.inr rfl
  · cases ha with
    | edited | loosened | kept => exact Or.inl (Or.inr (Or.inr hi))
    | grown _ _ d =>
        obtain ⟨z, hz, rfl⟩ := hi
        rw [newest_insertAll, List.mem_append, List.mem_reverse] at hz
        rcases hz with hz | hz
        · obtain ⟨key, -, rfl⟩ := List.mem_map.mp hz
          exact Or.inr rfl
        · exact Or.inl (Or.inr (Or.inr ⟨z, hz, rfl⟩))

theorem Shelters.subset (hx : P.Shelters q x) : x.handles ⊆ P.handles := fun _ hk =>
  List.mem_append_left _ (List.mem_cons_of_mem _ (hx.hosts.handles hk))

theorem Laden.lt_next_of_refers (hv : P.Laden) (hr : P.Refers h) : h < P.next := by
  rcases hr with rfl | ⟨x, hx, rfl⟩ | ⟨x, hx, rfl⟩
  · refine hv.fresh _ (List.mem_append_left _ ?_)
    rw [← hv.root.1]
    exact P.outline.handle_mem_handles
  · obtain ⟨e, he, hh, -⟩ := hv.entered x hx
    exact hh ▸ hv.standing.lt_next he
  · obtain ⟨e, he, hh, -⟩ := hv.keyed x hx
    exact hh ▸ hv.standing.lt_next he

theorem Shelters.plug {z : Outline} (hx : P.Shelters q x) (hp : P.outline = plug path y)
    (hr : P.Refers h) (hh : h ∈ y.handles) (hyz : y.Hosts q x → z.Hosts q x) :
    (plug path z).Hosts q x :=
  (hp ▸ hx.hosts).plug hh (fun hm => hx.apart h hm hr) hyz

end Draft

/-- Nothing that is sheltered is moved or changed. -/
theorem Step.hosts (hs : Step o P e Q) (hx : P.Shelters q x) : Q.outline.Hosts q x := by
  cases hs with
  | newScope s n path c m cs hu hp =>
      exact hx.plug hp P.refers_current (by simp) fun hy => hy.grow _
  | knownScope s n path h m cs hu hp =>
      refine hx.plug hp (Draft.refers_found hu) (by simp) fun hy => ?_
      simpa using hy.grow []
  | keptHeader => exact hx.hosts
  | contestedHeader s n path p c np before after h t m cs hu hp =>
      refine @Draft.Shelters.plug P q h x (.node h (.scope t) m cs) (.node p c np before after :: path)
        _ hx hp (Draft.refers_found hu) (by simp) fun hy => ?_
      simpa using hy
  | repeatedHeader => exact hx.hosts
  | left => exact hx.hosts
  | newLeaf l n path c m cs hu hp =>
      exact hx.plug hp P.refers_current (by simp) fun hy => hy.grow _
  | unitedLeaf l n path key h l' m cs hu hp =>
      refine hx.plug hp (Draft.refers_previous hu) (by simp) fun hy => ?_
      simpa [Outline.hosts_node, Content.Hosts] using hy
  | keptLeaf => exact hx.hosts
  | joinedLeaf l n path key p old np b nb before after h c m cs r nr rs hu hp =>
      refine hx.plug hp (Draft.refers_previous hu) (by simp) fun hy => ?_
      rw [Outline.hosts_conflict] at hy ⊢
      exact hy.imp_right fun hy => hy.grow _
  | opposedLeaf l n path key p d np before after h c m cs hu hp =>
      refine @Draft.Shelters.plug P q h x (.node h c m cs) (.node p d np before after :: path)
        _ hx hp (Draft.refers_previous hu) (by simp) fun hy => ?_
      exact (Outline.hosts_conflict ..).mpr (Or.inl (hy.within (List.mem_singleton_self _)))
  | opposedHeaders l n path key p d np before after k old nk h c m cs r hu hp =>
      refine @Draft.Shelters.plug P q h x (.conflict k .headers old nk (.node h c m cs) r)
        (.node p d np before after :: path) _ hx hp (Draft.refers_previous hu) (by simp) fun hy => ?_
      exact (Outline.hosts_conflict ..).mpr (Or.inl (hy.within (List.mem_singleton_self _)))
  | remarked comments path c m cs hp =>
      refine hx.plug hp P.refers_current (by simp) fun hy => ?_
      simpa using hy.grow []

theorem Step.shelters (hs : Step o P e Q) (hv : P.Laden) (hx : P.Shelters q x) : Q.Shelters q x := by
  refine ⟨hs.hosts hx, fun h hh hr => ?_⟩
  rcases hs.alters.refers hr with hr | rfl
  · exact hx.apart h hh hr
  · exact Nat.lt_irrefl _ (hv.fresh _ (hx.subset hh))

inductive Carries (P : Draft) (C : Outline) : Outline → Draft → Prop
  | mk (path : List Frame) (c : Content) (m : Notes) (cs : List Outline) (K : Outline) (j : Nat)
      (hp : P.outline = plug path (.node P.current c m cs)) (hc : c.isContainer = true)
      (hq : c.Hosts P.current) (hforget : K.forget = C.forget)
      (hh : K.handles.Perm (List.range' P.next j)) :
      Carries P C K
        { P with
          outline := plug path (.node P.current c m (cs ++ [K]))
          next := P.next + j }

theorem Draft.Laden.exists_carries (hv : P.Laden) (hd : s.Depicts P) (o : Options) (hC : C.sound = true) :
    ∃ s' K Q, s.step o (.carry C) = .ok s' ∧ s'.Depicts Q ∧ Carries P C K Q := by
  obtain ⟨path, c, m, cs, hp, hc, -, hcases⟩ := hv.standing.exists_current
  obtain ⟨ho, hn⟩ := hd.part hv.standing hp
  obtain ⟨f₁, K, he₁, h₁⟩ := Forest.copyable_of_sound hC s.forest
  obtain ⟨f', he, hsize, hpatch⟩ := h₁.attach ho hn hc
  have hle := h₁.size
  have hh := h₁.handles
  rw [hd.size] at hle hh
  have hq : c.Hosts P.current := by
    refine hcases.imp_right ?_
    rintro ⟨rfl, rfl, -⟩
    have hroot := hv.root.1
    rw [hp] at hroot
    exact ⟨rfl, hroot⟩
  refine ⟨_, K, _, ?_, hd.patched hv.standing hp hpatch (j := f₁.size - P.next) (by omega),
    .mk path c m cs K _ hp hc hq h₁.forget hh⟩
  simp only [State.step, State.carry, he₁, hd.current, he, bind, Except.bind]
  rw [hd.index, hd.entered, hd.conflicts]
  rfl

namespace Carries

theorem laden (h : Carries P C K Q) (hC : C.sound = true) (hv : P.Laden) : Q.Laden := by
  cases h with
  | mk path c m cs _ j hp hc hq hforget hh =>
      have hperm : ((Outline.node P.current c m (cs ++ [K])).handles ++ []).Perm
          ((Outline.node P.current c m cs).handles ++ List.range' P.next j) := by
        simpa using hh.append_left (cs.flatMap Outline.handles)
      have hhandles := hv.standing.changed (Draft.handles_changed [] hp hperm)
      rw [List.append_nil] at hhandles
      have hK : K.sound = true := by
        rw [← Outline.sound_forget, hforget, Outline.sound_forget]
        exact hC
      have hcensus : ∀ e ∈ P.census, ∃ e' ∈ (plug path (.node P.current c m (cs ++ [K]))).census "",
          e.Grows e' := by
        intro e he
        obtain ⟨pre, post, hplug⟩ := Outline.census_plug "" path
        refine ⟨e, ?_, .refl e⟩
        rw [Draft.census, hp, hplug, Outline.census_node] at he
        rw [hplug, Outline.census_node, List.flatMap_append]
        simp only [List.mem_append] at he ⊢
        tauto
      refine ⟨hhandles.1, hhandles.2, ?_, ?_, ?_, ?_⟩
      · refine Outline.sound_plug_of (hp ▸ hv.sound) (fun hs => ?_) fun fr _ _ ha => ?_
        · rw [Outline.sound_node] at hs ⊢
          refine ⟨Or.inl hc, fun x hx => ?_⟩
          rcases List.mem_append.mp hx with hx | hx
          · exact hs.2 x hx
          · exact List.mem_singleton.mp hx ▸ hK
        · rwa [← fr.admits_congr]
          rfl
      · exact hv.standing.root_change hp fun _ => ⟨rfl, fun hc => hc⟩
      · exact fun x hx => Draft.entered_grows hcensus (hv.entered x hx)
      · exact fun x hx => Draft.keyed_grows hcensus (hv.keyed x hx)

theorem forget (h : Carries P C K Q) : K.forget = C.forget := by
  cases h
  assumption

theorem refers (h : Carries P C K Q) (hr : Q.Refers q) : P.Refers q := by
  cases h
  exact hr

theorem keeps (h : Carries P C K Q) (hx : P.Shelters q x) : Q.Shelters q x := by
  refine ⟨?_, fun k hk hr => hx.apart k hk (h.refers hr)⟩
  cases h with
  | mk path c m cs _ j hp => exact hx.plug hp P.refers_current (by simp) fun hy => hy.grow _

theorem shelters (h : Carries P C K Q) (hv : P.Laden) : Q.Shelters P.current K := by
  refine ⟨?_, fun k hk hr => ?_⟩
  · cases h with
    | mk path c m cs _ j hp hc hq =>
        refine Outline.Hosts.at path ((Outline.hosts_node ..).mpr (Or.inl ⟨rfl, ?_, hq⟩))
        exact List.mem_append_right _ (List.mem_singleton_self _)
  · have hlt := hv.lt_next_of_refers (h.refers hr)
    cases h with
    | mk path c m cs _ j hp hc hq hforget hh =>
        rw [hh.mem_iff, List.mem_range'_1] at hk
        exact Nat.not_le.mpr hlt hk.1

end Carries

/-- Some events have been taken in: every conflict among them has a copy that is sheltered. -/
structure Continues (P : Draft) (es : List Event) (Q : Draft) : Prop where
  laden : Q.Laden
  keeps : ∀ {q x}, P.Shelters q x → Q.Shelters q x
  copies : ∀ C, .carry C ∈ es → ∃ q K, K.forget = C.forget ∧ Q.Shelters q K

theorem Draft.Laden.exists_continues (hv : P.Laden) (hd : s.Depicts P) (hk : o.keep ≠ .right)
    (he : e.Sound) : ∃ s' Q, s.step o e = .ok s' ∧ s'.Depicts Q ∧ Continues P [e] Q := by
  cases hc : e.isCarry with
  | true =>
      cases e with
      | enter | leave | declare | remark => cases hc
      | carry C =>
          obtain ⟨s', K, Q, hstep, hd', h⟩ := hv.exists_carries hd o he
          refine ⟨s', Q, hstep, hd', h.laden he hv, h.keeps, fun C' hC => ?_⟩
          cases List.mem_singleton.mp hC
          exact ⟨P.current, K, h.forget, h.shelters hv⟩
  | false =>
      obtain ⟨Q, hs⟩ := exists_step hv.standing hk hc
      obtain ⟨s', hstep, hd'⟩ := hs.depicts hd hv.standing
      refine ⟨s', Q, hstep, hd', hs.laden hv, hs.shelters hv, fun C hC => ?_⟩
      cases List.mem_singleton.mp hC
      cases hc

/-- A merge takes in all events of sound trees, conflicts of earlier merges among them. -/
theorem Draft.Laden.exists_continues_all (hv : P.Laden) (hd : s.Depicts P) (hk : o.keep ≠ .right)
    {es : List Event} (he : ∀ e ∈ es, e.Sound) :
    ∃ s' Q, s.run o es = .ok s' ∧ s'.Depicts Q ∧ Continues P es Q := by
  induction es generalizing s P with
  | nil => exact ⟨s, P, rfl, hd, hv, fun hx => hx, nofun⟩
  | cons e es ih =>
      obtain ⟨s₁, P₁, hstep, hd₁, h₁⟩ := hv.exists_continues hd hk (he e List.mem_cons_self)
      obtain ⟨s', Q, hrun, hd', h'⟩ := ih h₁.laden hd₁ fun e hm => he e (List.mem_cons_of_mem _ hm)
      refine ⟨s', Q, ?_, hd', h'.laden, fun hx => h'.keeps (h₁.keeps hx), fun C hC => ?_⟩
      · rw [State.run, List.foldlM_cons, hstep]
        exact hrun
      · rcases List.mem_cons.mp hC with rfl | hC
        · obtain ⟨q, K, hforget, hK⟩ := h₁.copies C (List.mem_singleton_self _)
          exact ⟨q, K, hforget, h'.keeps hK⟩
        · exact h'.copies C hC

end Merge

end Reconcile
