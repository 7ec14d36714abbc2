import Reconcile.Proofs.Forest.Tending
import Reconcile.Proofs.Normal.Roster

namespace Reconcile

open Forest Outline

namespace Forest

def leavesAmong (f : Forest) (k : Category) (hs : List Handle) : List Handle :=
  hs.filter fun h => (f.look h).any (·.kind.isLeafOf k)

/-- How a node stands in a forest that has no added containers. -/
def standing (f : Forest) (h : Handle) (n : Node) : Standing :=
  ⟨h, n.kind.clearSingleton, n.notes, n.parent,
    Category.steady.map fun k => f.leavesAmong k n.children⟩

end Forest

def settle (N : Nat) (h : Handle) : Handle := if h < N then h else 0

variable {N h : Nat} {f g : Forest} {parent holder : Option Handle} {o x : Outline} {cs : List Outline}
  {k : Category} {φ : Handle → Handle}

theorem settle_of_lt (hh : h < N) : settle N h = h := if_pos hh

theorem settle_of_le (hh : N ≤ h) : settle N h = 0 := if_neg (Nat.not_lt.mpr hh)

theorem lt_of_settle (hh : settle N h ≠ 0) : h < N := by
  by_contra hn
  exact hh (settle_of_le (Nat.not_lt.mp hn))

namespace Outline

theorem Holds.exists_look (ho : o.Holds f.look parent) :
    ∃ n, f.look o.handle = some n ∧ n.kind = o.kind ∧ n.parent = parent := by
  cases o with
  | node => exact ⟨_, ((holds_node ..).mp ho).1, rfl, rfl⟩
  | conflict => exact ⟨_, ((holds_conflict ..).mp ho).1, rfl, rfl⟩

theorem lines_of_holds (hcs : ∀ x ∈ cs, x.Holds f.look parent)
    (hg : ∀ x ∈ cs, ∀ k, x.kind ≠ .plain (.group k)) :
    lines cs = Category.steady.map fun k => f.leavesAmong k (cs.map handle) := by
  refine List.map_congr_left fun k _ => ?_
  induction cs with
  | nil => rfl
  | cons x cs ih =>
      have hrest := ih (fun y hy => hcs y (List.mem_cons_of_mem x hy))
        fun y hy => hg y (List.mem_cons_of_mem x hy)
      obtain ⟨n, hn, hk, -⟩ := (hcs x List.mem_cons_self).exists_look
      rw [List.flatMap_cons, hrest, line_of_no_group (hg x List.mem_cons_self), leavesAmong, leavesAmong,
        List.map_cons, List.filter_cons, hn, Option.any_some, hk]
      split
      · rfl
      · rfl

theorem roster_of_holds (ho : o.Holds f.look parent)
    (hroot : ∀ h ∈ o.handles, ∀ n ∈ f.look h, h = 0 → n.kind = .plain .tree)
    (hg : ∀ h ∈ o.handles, ∀ n ∈ f.look h, ∀ k, n.kind ≠ .plain (.group k)) :
    o.roster parent = o.handles.filterMap fun h => (f.look h).map (f.standing h) := by
  induction o generalizing parent with
  | node h c n cs ih =>
      rw [holds_node] at ho
      simp only [handles_node, List.mem_cons, List.mem_flatMap, forall_eq_or_imp] at hroot hg
      have hn : ¬(h = 0 ∧ c.isFolder = true) := by
        rintro ⟨hh, hc⟩
        cases hroot.1 _ ho.1 hh
        cases hc
      have hcs : ∀ x ∈ cs, ∀ k, x.kind ≠ .plain (.group k) := by
        intro x hx k
        obtain ⟨m, hm, hk, -⟩ := (ho.2 x hx).exists_look
        rw [← hk]
        exact hg.2 _ ⟨x, hx, x.handle_mem_handles⟩ m hm k
      rw [roster_node hn, handles_node, List.filterMap_cons, ho.1, List.filterMap_flatMap,
        lines_of_holds ho.2 hcs]
      congr 1
      refine List.flatMap_congr fun x hx => ?_
      exact ih x hx (ho.2 x hx) (fun h hh => hroot.2 h ⟨x, hx, hh⟩) fun h hh => hg.2 h ⟨x, hx, hh⟩
  | conflict h form labels n l r ihl ihr =>
      rw [holds_conflict] at ho
      simp only [handles_conflict, List.mem_cons, List.mem_append, forall_eq_or_imp] at hroot hg
      rw [roster, handles_conflict, List.filterMap_cons, ho.1, List.filterMap_append,
        ihl ho.2.1 (fun h hh => hroot.2 h (Or.inl hh)) fun h hh => hg.2 h (Or.inl hh),
        ihr ho.2.2 (fun h hh => hroot.2 h (Or.inr hh)) fun h hh => hg.2 h (Or.inr hh)]
      rfl

theorem everywhere_of_holds {Q : Kind → Prop} {P : Bool → Content → List Outline → Prop} {i : Bool}
    (ho : o.Holds f.look parent) (hq : ∀ h ∈ o.handles, ∀ n ∈ f.look h, Q n.kind)
    (hP : ∀ i c cs, Q (.plain c) → (∀ x ∈ cs, Q x.kind) → P i c cs) : o.Everywhere P i := by
  induction o generalizing i parent with
  | node h c n cs ih =>
      rw [holds_node] at ho
      simp only [handles_node, List.mem_cons, List.mem_flatMap, forall_eq_or_imp] at hq
      have hkinds : ∀ x ∈ cs, Q x.kind := by
        intro x hx
        obtain ⟨m, hm, hk, -⟩ := (ho.2 x hx).exists_look
        rw [← hk]
        exact hq.2 _ ⟨x, hx, x.handle_mem_handles⟩ m hm
      refine everywhere_node.mpr fun _ => ⟨hP _ c cs (hq.1 _ ho.1) hkinds, fun x hx => ?_⟩
      exact ih x hx (ho.2 x hx) fun h hh => hq.2 h ⟨x, hx, hh⟩
  | conflict h form labels n l r ihl ihr =>
      rw [holds_conflict] at ho
      simp only [handles_conflict, List.mem_cons, List.mem_append, forall_eq_or_imp] at hq
      exact ⟨ihl ho.2.1 fun h hh => hq.2 h (Or.inl hh), ihr ho.2.2 fun h hh => hq.2 h (Or.inr hh)⟩

theorem line_rename (φ : Handle → Handle) (o : Outline) : (o.rename φ).line k = (o.line k).map φ := by
  induction o with
  | conflict => rfl
  | node h c n cs ih =>
      rw [rename_node]
      cases c with
      | group k' =>
          rw [line_group, line_group, List.flatMap_map, List.flatMap_congr ih, ← List.map_flatMap]
          split
          · rfl
          · rfl
      | leaf l =>
          rw [line, line]
          split
          · rfl
          · rfl
      | _ => rfl

theorem line_sublist (o : Outline) : (o.line k).Sublist o.handles := by
  induction o with
  | conflict => exact List.nil_sublist _
  | node h c n cs ih =>
      rw [handles_node]
      cases c with
      | group k' =>
          rw [line_group]
          split
          · exact (List.Sublist.flatMap_right cs ih).cons h
          · exact List.nil_sublist _
      | leaf l =>
          rw [line]
          split
          · exact (List.nil_sublist _).cons_cons h
          · exact List.nil_sublist _
      | _ => exact List.nil_sublist _

theorem lines_sublist (hz : ∀ l ∈ lines (cs.map (rename (settle N))), 0 ∉ l) :
    ∀ l ∈ lines (cs.map (rename (settle N))), l.Sublist (cs.flatMap handles) := by
  intro l hl
  have hz := hz l hl
  obtain ⟨k, -, rfl⟩ := List.mem_map.mp hl
  have hseen : (cs.map (rename (settle N))).flatMap (line k) =
      (cs.flatMap (line k)).map (settle N) := by
    rw [List.flatMap_map, List.map_flatMap]
    exact List.flatMap_congr fun x _ => line_rename _ x
  rw [hseen] at hz ⊢
  have hself : (cs.flatMap (line k)).map (settle N) = cs.flatMap (line k) := by
    refine (List.map_congr_left fun h hh => ?_).trans (List.map_id _)
    apply settle_of_lt
    apply lt_of_settle
    intro he
    exact hz (List.mem_map.mpr ⟨h, hh, he⟩)
  rw [hself]
  exact List.Sublist.flatMap_right cs fun x _ => line_sublist x

end Outline

/-- What a roster says of a node is true in a forest where handles from `N` on are new. -/
structure Standing.TrueIn (s : Standing) (g : Forest) (N : Nat) (order : List Handle) : Prop where
  listed : s.handle ∈ order
  node : ∃ m, g.look s.handle = some m ∧ m.kind.clearSingleton = s.kind ∧ m.notes = s.notes
  holder : ∃ up, g.ancestors s.handle = .ok up ∧ up.find? (· < N) = s.holder
  lines : ∀ l ∈ s.lines, l.Sublist order

def Forest.IsAdded (g : Forest) (N : Nat) (h : Handle) : Prop :=
  N ≤ h ∧ ∃ m c, g.look h = some m ∧ m.kind = .plain c ∧ c.isFolder = true

/-- A roster is true of some nodes and leaves out no others than added containers. -/
structure Faithful (g : Forest) (N : Nat) (roster : List Standing) (order : List Handle) : Prop where
  sound : ∀ s ∈ roster, s.TrueIn g N order
  complete : ∀ h ∈ order, (∃ s ∈ roster, s.handle = h) ∨ g.IsAdded N h

variable {s : Standing} {ss ts : List Standing} {hs ks : List Handle}

theorem Standing.TrueIn.mono (ht : s.TrueIn g N hs) (hsub : hs.Sublist ks) : s.TrueIn g N ks where
  listed := hsub.subset ht.listed
  node := ht.node
  holder := ht.holder
  lines := fun l hl => (ht.lines l hl).trans hsub

namespace Faithful

theorem nil : Faithful g N [] [] := ⟨by simp, by simp⟩

theorem append (ha : Faithful g N ss hs) (hb : Faithful g N ts ks) :
    Faithful g N (ss ++ ts) (hs ++ ks) where
  sound := by
    intro s hm
    rcases List.mem_append.mp hm with hm | hm
    · exact (ha.sound s hm).mono (List.sublist_append_left _ _)
    · exact (hb.sound s hm).mono (List.sublist_append_right _ _)
  complete := by
    intro h hm
    rcases List.mem_append.mp hm with hm | hm
    · exact (ha.complete h hm).imp_left fun ⟨s, hs, he⟩ => ⟨s, List.mem_append_left _ hs, he⟩
    · exact (hb.complete h hm).imp_left fun ⟨s, hs, he⟩ => ⟨s, List.mem_append_right _ hs, he⟩

theorem flatMap {F : Outline → List Standing} (hF : ∀ x ∈ cs, Faithful g N (F x) x.handles) :
    Faithful g N (cs.flatMap F) (cs.flatMap Outline.handles) := by
  induction cs with
  | nil => exact nil
  | cons x cs ih =>
      rw [List.flatMap_cons, List.flatMap_cons]
      exact (hF x List.mem_cons_self).append (ih fun y hy => hF y (List.mem_cons_of_mem x hy))

theorem cons (hs' : s.TrueIn g N (h :: hs)) (he : s.handle = h) (hb : Faithful g N ss hs) :
    Faithful g N (s :: ss) (h :: hs) where
  sound := by
    intro t ht
    rcases List.mem_cons.mp ht with rfl | ht
    · exact hs'
    · exact (hb.sound t ht).mono (List.sublist_cons_self h hs)
  complete := by
    intro k hk
    rcases List.mem_cons.mp hk with rfl | hk
    · exact Or.inl ⟨s, List.mem_cons_self, he⟩
    · exact (hb.complete k hk).imp_left fun ⟨t, ht, he⟩ => ⟨t, List.mem_cons_of_mem s ht, he⟩

theorem skip (ha : g.IsAdded N h) (hb : Faithful g N ss hs) : Faithful g N ss (h :: hs) where
  sound := fun s hm => (hb.sound s hm).mono (List.sublist_cons_self h hs)
  complete := by
    intro k hk
    rcases List.mem_cons.mp hk with rfl | hk
    · exact Or.inr ha
    · exact hb.complete k hk

end Faithful

def Standing.Legible (s : Standing) : Prop := 0 ∉ s.kind.sides ∧ ∀ l ∈ s.lines, 0 ∉ l

variable {p : Handle}

/-- The nearest old node above a node is found by way of its parent. -/
theorem find_ancestors {n : Node} (hw : g.WellFormed) (hn : g.look h = some n)
    (hp : n.parent = some p)
    (hup : ∃ up, g.ancestors p = .ok up ∧ (p :: up).find? (· < N) = holder) :
    ∃ up, g.ancestors h = .ok up ∧ up.find? (· < N) = holder := by
  obtain ⟨up, hanc, hfind⟩ := hup
  cases hl : g.ancestors h with
  | error e =>
      have hok := hw.chain h (look_lt hn)
      rw [hl] at hok
      cases hok
  | ok l =>
      obtain ⟨up', rfl, hup'⟩ := ancestors_cons hl hn hp
      cases hanc.symm.trans hup'
      exact ⟨_, rfl, hfind⟩

theorem faithful_roster (hw : g.WellFormed) (ho : o.Holds g.look (some p))
    (hup : ∃ up, g.ancestors p = .ok up ∧ (p :: up).find? (· < N) = holder) (hz : 0 ∉ o.handles)
    (hl : ∀ s ∈ (o.rename (settle N)).roster holder, s.handle ≠ 0 ∧ s.Legible) :
    Faithful g N ((o.rename (settle N)).roster holder) o.handles := by
  induction o generalizing p holder with
  | node h c n cs ih =>
      rw [holds_node] at ho
      rw [handles_node, List.mem_cons, not_or, List.mem_flatMap] at hz
      obtain ⟨up, hanc, hfind⟩ := find_ancestors hw ho.1 rfl hup
      rw [rename_node] at hl ⊢
      rw [handles_node]
      have hbelow (holder : Option Handle) (hfind : (h :: up).find? (· < N) = holder)
          (hl : ∀ s ∈ (cs.map (rename (settle N))).flatMap (roster holder), s.handle ≠ 0 ∧ s.Legible) :
          Faithful g N ((cs.map (rename (settle N))).flatMap (roster holder)) (cs.flatMap handles) := by
        rw [List.flatMap_map] at hl ⊢
        apply Faithful.flatMap
        intro x hx
        apply ih x hx (ho.2 x hx) ⟨up, hanc, hfind⟩ fun hm => hz.2 ⟨x, hx, hm⟩
        intro s hs
        exact hl s (List.mem_flatMap.mpr ⟨x, hx, hs⟩)
      by_cases hh : h < N
      · have hn : ¬(settle N h = 0 ∧ c.isFolder = true) := by
          rw [settle_of_lt hh]
          exact fun hn => hz.1 hn.1.symm
        rw [roster_node hn, settle_of_lt hh] at hl ⊢
        rw [List.forall_mem_cons] at hl
        refine Faithful.cons ⟨List.mem_cons_self, ?_, ⟨up, hanc, hfind⟩, ?_⟩ rfl
          (hbelow (some h) (by simp [hh]) hl.2)
        · exact ⟨_, ho.1, rfl, rfl⟩
        · intro l hm
          exact (lines_sublist hl.1.2.2 l hm).trans (List.sublist_cons_self _ _)
      · -- a new node that is no added container would have a line under handle `0`
        have hN := Nat.not_lt.mp hh
        rw [settle_of_le hN] at hl ⊢
        have hc : c.isFolder = true := by
          by_contra hc
          rw [roster_node fun hn => hc hn.2] at hl
          exact (hl _ List.mem_cons_self).1 rfl
        rw [roster_folder hc] at hl ⊢
        exact (hbelow holder (by simpa [hh] using hfind) hl).skip ⟨hN, _, c, ho.1, rfl, hc⟩
  | conflict h form labels n l r ihl ihr =>
      rw [holds_conflict] at ho
      simp only [handles_conflict, List.mem_cons, List.mem_append, not_or] at hz
      obtain ⟨up, hanc, hfind⟩ := find_ancestors hw ho.1 rfl hup
      rw [rename_conflict, roster, handle_rename, handle_rename] at hl ⊢
      rw [List.forall_mem_cons, List.forall_mem_append] at hl
      obtain ⟨⟨hh, hsides, -⟩, hll, hlr⟩ := hl
      have hh : h < N := lt_of_settle hh
      simp only [Kind.sides, List.mem_cons, List.not_mem_nil, or_false, not_or] at hsides
      have hlh : settle N l.handle = l.handle := settle_of_lt (lt_of_settle (Ne.symm hsides.1))
      have hrh : settle N r.handle = r.handle := settle_of_lt (lt_of_settle (Ne.symm hsides.2))
      have hfind' : (h :: up).find? (· < N) = some h := by simp [hh]
      rw [settle_of_lt hh] at hll hlr
      rw [settle_of_lt hh, hlh, hrh, handles_conflict]
      refine Faithful.cons ⟨List.mem_cons_self, ?_, ⟨up, hanc, hfind⟩, ?_⟩ rfl
        ((ihl ho.2.1 ⟨up, hanc, hfind'⟩ hz.2.1 hll).append (ihr ho.2.2 ⟨up, hanc, hfind'⟩ hz.2.2 hlr))
      · exact ⟨_, ho.1, rfl, rfl⟩
      · intro l hm
        obtain ⟨k, -, rfl⟩ := List.mem_map.mp hm
        exact List.nil_sublist _

end Reconcile
