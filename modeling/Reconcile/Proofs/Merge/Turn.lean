import Reconcile.Proofs.Forest.Cover
import Reconcile.Proofs.Merge.Conservation
import Reconcile.Proofs.Merge.Overriding

namespace Reconcile.Merge

open Outline (plug)

variable {o : Options} {P Q : Draft} {e : Event}

def Draft.FindsNamed (P : Draft) : Event → Prop
  | .enter s _ => ∀ h, P.scopeUnder? (s.qualify P.name) = some h → ∀ d ∈ P.census, d.handle = h →
      d.content.qualify d.outer = s.qualify P.name
  | _ => True

/-- What an event makes of a declaration in the scope `outer`, or of the scope that is being filled. -/
inductive Revises (P : Draft) (h : Handle) (outer : String) :
    Event → Content → Content → Notes → Prop
  | scope (s : Scope) (n : Notes) (t : Scope) (m : Notes)
      (hu : P.scopeUnder? (s.qualify P.name) = some h) (hn : t.qualify outer = s.qualify P.name) :
      Revises P h outer (.enter s n) (.scope t) (.scope s) m
  | leaf (l : Leaf) (n : Notes) (key : String) (k l' : Leaf) (m : Notes)
      (hu : P.previous? (l.keys P.name) = some (key, h)) (hl : l.Within l')
      (hm : n.comments ⊆ m.comments) : Revises P h outer (.declare l n) (.leaf k) (.leaf l') m
  | remark (comments : List String) (c : Content) (m : Notes) (hc : c.isContainer = true) :
      Revises P h outer (.remark comments) c c m

def Draft.opened (P : Draft) (h : Handle) : Event → List (Handle × String)
  | .enter s _ => (h, s.qualify P.name) :: P.entered
  | _ => P.entered

/-- All that an event can do to a draft if later versions are preferred. -/
inductive Turn (P : Draft) : Event → Draft → Prop
  | added (e : Event) (d : Content) (n : Notes) (path : List Frame) (c : Content) (m : Notes)
      (cs : List Outline) (hd : e.declaration? = some (d, n))
      (hp : P.outline = plug path (.node P.current c m cs)) (hc : c.isContainer = true)
      (hn : c.qualify (pathName "" path) = P.name) :
      Turn P e
        { P with
          outline := plug path (.node P.current c m (cs ++ [.node P.next d n []]))
          index := P.index.insertAll (d.keys P.name) P.next
          entered := P.opened P.next e
          next := P.next + 1 }
  | revised (e : Event) (path : List Frame) (h : Handle) (c : Content) (m : Notes)
      (cs : List Outline) (c' : Content) (m' : Notes) (hp : P.outline = plug path (.node h c m cs))
      (hq : c'.qualify (pathName "" path) = c.qualify (pathName "" path))
      (hr : Revises P h (pathName "" path) e c c' m') :
      Turn P e { P with outline := plug path (.node h c' m' cs), entered := P.opened h e }
  | supplanted (l : Leaf) (n : Notes) (path : List Frame) (key : String) (q : Handle) (d : Content)
      (nq : Notes) (before after : List Outline) (h : Handle) (s : Scope) (m : Notes)
      (cs : List Outline) (hu : P.previous? (l.keys P.name) = some (key, h))
      (hp : P.outline = plug (.node q d nq before after :: path) (.node h (.scope s) m cs))
      (hen : ∀ x ∈ P.entered, x.1 ∉ (Outline.node h (.scope s) m cs).handles) :
      Turn P (.declare l n)
        (P.supplant (.node q d nq before after :: path) (.node h (.scope s) m cs) l n)
  | left : Turn P .leave { P with entered := P.entered.tail }

theorem Draft.Standing.lt_next (hv : P.Standing) {d : Entry} (hd : d ∈ P.census) :
    d.handle < P.next :=
  hv.fresh _ (List.mem_append_left _ (Outline.handle_mem_of_census hd))

theorem Draft.FindsNamed.qualify {s t : Scope} {n m : Notes} {path : List Frame} {h : Handle}
    {cs : List Outline} (hf : P.FindsNamed (.enter s n))
    (hu : P.scopeUnder? (s.qualify P.name) = some h)
    (hp : P.outline = plug path (.node h (.scope t) m cs)) :
    t.qualify (pathName "" path) = s.qualify P.name :=
  hf h hu _ (Draft.mem_census_of_plug path hp rfl) rfl

theorem Step.turn (hk : o.keep = .right) (hv : P.Standing) (hf : P.FindsNamed e)
    (hs : Step o P e Q) : Turn P e Q := by
  cases hs with
  | newScope s n path c m cs hu hp hc hn => exact .added (.enter s n) (.scope s) n path c m cs rfl hp hc hn
  | newLeaf l n path c m cs hu hp hc hn => exact .added (.declare l n) (.leaf l) n path c m cs rfl hp hc hn
  | knownScope s n path h m cs hu hp =>
      exact .revised (.enter s n) path h _ m cs _ _ hp rfl (.scope s n s _ hu (hf.qualify hu hp))
  | unitedLeaf l n path key h k m cs hu hp hl =>
      exact .revised (.declare l n) path h _ m cs _ _ hp rfl
        (.leaf l n key k _ _ hu (.of_compatible hl) (subset_union_right _ _))
  | remarked comments path c m cs hp hn =>
      have hc : c.isContainer = true := by
        rcases hv.current_cases hp with ⟨s, rfl⟩ | ⟨rfl, -⟩ <;> rfl
      exact .revised (.remark comments) path _ c m cs c _ hp rfl (.remark comments c _ hc)
  | left => exact .left
  | keptHeader _ _ _ _ _ _ _ _ _ _ hk' => cases hk.symm.trans hk'
  | contestedHeader _ _ _ _ _ _ _ _ _ _ _ _ _ _ _ hk' => cases hk.symm.trans hk'
  | repeatedHeader _ _ _ _ _ _ _ _ _ _ _ _ _ _ hk' => cases hk.symm.trans hk'
  | keptLeaf _ _ _ _ _ _ _ _ _ _ _ hk' => cases hk.symm.trans hk'
  | joinedLeaf _ _ _ _ _ _ _ _ _ _ _ _ _ _ _ _ _ _ _ _ _ hk' => cases hk.symm.trans hk'
  | opposedLeaf _ _ _ _ _ _ _ _ _ _ _ _ _ _ _ _ _ hk' => cases hk.symm.trans hk'
  | opposedHeaders _ _ _ _ _ _ _ _ _ _ _ _ _ _ _ _ _ _ _ _ hk' => cases hk.symm.trans hk'

theorem Override.turn (hf : P.FindsNamed e) (ho : Override P e Q) : Turn P e Q := by
  cases ho with
  | header s n path h t m cs hu hp hne hq =>
      exact .revised (.enter s n) path h _ m cs _ _ hp hq (.scope s n t _ hu (hf.qualify hu hp))
  | version l n path key h k m cs hu hp hl =>
      exact .revised (.declare l n) path h _ m cs _ _ hp rfl
        (.leaf l n key k l n hu (.same l) (List.Subset.refl _))
  | supplanted l n path key q d nq before after h s m cs hu hp hen =>
      exact .supplanted l n path key q d nq before after h s m cs hu hp hen

theorem mem_census_plug_of_not_mem {path : List Frame} {x y : Outline} {d : Entry}
    (hd : d ∈ (plug path x).census "") (hx : d.handle ∉ x.handles) : d ∈ (plug path y).census "" := by
  obtain ⟨pre, post, hcensus⟩ := Outline.census_plug "" path
  rw [hcensus, List.mem_append, List.mem_append] at hd ⊢
  rcases hd with (hd | hd) | hd
  · exact Or.inl (Or.inl hd)
  · exact absurd (Outline.handle_mem_of_census hd) hx
  · exact Or.inr hd

theorem Revises.kind {h : Handle} {outer : String} {c c' : Content} {m : Notes}
    (hr : Revises P h outer e c c' m) :
    c'.isDeclaration = c.isDeclaration ∧ c'.isContainer = c.isContainer ∧
      c'.scope?.isSome = c.scope?.isSome := by
  cases hr <;> exact ⟨rfl, rfl, rfl⟩

/-- An entry of the census before and after a revision of the node `h` in the scope `outer`. -/
def Revised (h : Handle) (outer : String) (c c' : Content) (m : Notes) (d d' : Entry) : Prop :=
  d' = d ∨ d.handle = h ∧ d.outer = outer ∧ d.content = c ∧ d' = { d with content := c', notes := m }

section

variable {path : List Frame} {h : Handle} {c c' : Content} {m m' : Notes} {cs : List Outline}

theorem census_revised (hp : P.outline = plug path (.node h c m cs))
    (hq : c'.qualify (pathName "" path) = c.qualify (pathName "" path))
    (hd : c'.isDeclaration = c.isDeclaration) :
    List.Forall₂ (Revised h (pathName "" path) c c' m') P.census
      ((plug path (.node h c' m' cs)).census "") := by
  have same (ds : List Entry) : List.Forall₂ (Revised h (pathName "" path) c c' m') ds ds :=
    List.forall₂_same.mpr fun d _ => Or.inl rfl
  obtain ⟨pre, post, hcensus⟩ := Outline.census_plug "" path
  rw [Draft.census, hp, hcensus, hcensus, Outline.census_node, Outline.census_node, hq]
  refine List.rel_append (List.rel_append (same _) (List.rel_append ?_ (same _))) (same _)
  rw [Outline.ownEntry, Outline.ownEntry, hd]
  split
  · exact .cons (Or.inr ⟨rfl, rfl, rfl, rfl⟩) .nil
  · exact .nil

/-- The same place, and the same name if it is that of a scope. -/
structure Stays (d d' : Entry) : Prop where
  handle : d'.handle = d.handle
  outer : d'.outer = d.outer
  scope : d'.content.scope?.isSome = d.content.scope?.isSome
  name : d'.content.qualify d'.outer = d.content.qualify d.outer

theorem Stays.refl (d : Entry) : Stays d d := ⟨rfl, rfl, rfl, rfl⟩

theorem Stays.exists_scope {d d' : Entry} (h : Stays d d') {s : Scope} (hs : d.content = .scope s) :
    ∃ t, d'.content = .scope t ∧ t.qualify d'.outer = s.qualify d.outer := by
  have hname := h.name
  have hscope := h.scope
  rw [hs] at hname hscope
  cases hc : d'.content with
  | scope t =>
      rw [hc] at hname
      exact ⟨t, rfl, hname⟩
  | tree | visibilityGroup | group | leaf => simp [hc, Content.scope?] at hscope

theorem Revised.stays {d d' : Entry} (hr : Revised h (pathName "" path) c c' m' d d')
    (hk : c'.scope?.isSome = c.scope?.isSome)
    (hq : c'.qualify (pathName "" path) = c.qualify (pathName "" path)) : Stays d d' := by
  rcases hr with rfl | ⟨-, ho, rfl, rfl⟩
  · exact .refl _
  · exact ⟨rfl, rfl, hk, by simpa only [ho] using hq⟩

end

theorem mem_insertAll {i : Index} {keys : List String} {h : Handle} {x : String × Handle} :
    x ∈ (i.insertAll keys h).newest ↔ x ∈ i.newest ∨ x.1 ∈ keys ∧ x.2 = h := by
  rw [Draft.newest_insertAll, List.mem_append, List.mem_reverse, List.mem_map, or_comm]
  refine or_congr_right ⟨?_, ?_⟩
  · rintro ⟨key, hkey, rfl⟩
    exact ⟨hkey, rfl⟩
  · rintro ⟨hkey, rfl⟩
    exact ⟨x.1, hkey, rfl⟩

namespace Turn

theorem next_le (ht : Turn P e Q) : P.next ≤ Q.next := by
  cases ht with
  | added => exact Nat.le_succ _
  | revised => exact Nat.le_refl _
  | supplanted => exact Nat.le_succ _
  | left => exact Nat.le_refl _

theorem conflictFree (ht : Turn P e Q) (hc : P.outline.conflictFree = true) :
    Q.outline.conflictFree = true := by
  cases ht with
  | added e d n path c m cs hd hp =>
      rw [hp] at hc
      refine Outline.conflictFree_plug hc fun hx => ?_
      rw [Outline.conflictFree_node] at hx ⊢
      simpa [or_imp, forall_and] using hx
  | revised e path h c m cs c' m' hp =>
      rw [hp] at hc
      refine Outline.conflictFree_plug hc fun hx => ?_
      rwa [Outline.conflictFree_node] at hx ⊢
  | supplanted l n path key q d nq before after h s m cs hu hp =>
      rw [hp] at hc
      exact Outline.conflictFree_plug hc fun _ => by simp
  | left => exact hc

theorem covers (ht : Turn P e Q) {k h : Handle} (hh : h < P.next) (hc : Q.outline.Covers k h) :
    P.outline.Covers k h := by
  have hne : h ≠ P.next := Nat.ne_of_lt hh
  cases ht with
  | added e d n path c m cs hd hp =>
      rw [hp]
      refine .of_plug (fun k hk => ?_) hc
      rw [Outline.covers_node] at hk ⊢
      rcases hk with ⟨rfl, hk⟩ | ⟨x, hx, hk⟩
      · exact Or.inl ⟨rfl, by simpa [hne] using hk⟩
      · rcases List.mem_append.mp hx with hx | hx
        · exact Or.inr ⟨x, hx, hk⟩
        · cases List.mem_singleton.mp hx
          exact absurd hk.mem (by simpa using hne)
  | revised e path a c m cs c' m' hp =>
      rw [hp]
      refine .of_plug (fun k hk => ?_) hc
      rwa [Outline.covers_node, Outline.handles_node] at hk ⊢
  | supplanted l n path key q d nq before after a s m cs hu hp =>
      rw [hp]
      exact .of_plug (fun k hk => absurd hk.mem (by simpa using hne)) hc
  | left => exact hc

theorem index (ht : Turn P e Q) {x : String × Handle} (hx : x ∈ Q.index.newest) :
    x ∈ P.index.newest ∨
      P.next ≤ x.2 ∧ ∃ c n, e.declaration? = some (c, n) ∧ x.1 ∈ c.keys P.name := by
  cases ht with
  | added e d n path c m cs hd =>
      rcases mem_insertAll.mp hx with hx | ⟨hk, hh⟩
      · exact Or.inl hx
      · exact Or.inr ⟨Nat.le_of_eq hh.symm, d, n, hd, hk⟩
  | revised | left => exact Or.inl hx
  | supplanted l n =>
      rcases mem_insertAll.mp hx with hx | ⟨hk, hh⟩
      · exact Or.inl (List.mem_filter.mp hx).1
      · exact Or.inr ⟨Nat.le_of_eq hh.symm, .leaf l, n, rfl, hk⟩

theorem keeps (ht : Turn P e Q) {d : Entry} (hd : d ∈ P.census) {k : Leaf}
    (hk : d.content = .leaf k) : d ∈ Q.census ∨ ∃ l n key h, e = .declare l n ∧
      P.previous? (l.keys P.name) = some (key, h) ∧ P.outline.Covers h d.handle := by
  cases ht with
  | added e d n path c m cs hd' hp hc hn =>
      exact Or.inl ((Draft.census_added hp (Event.isDeclaration hd') hn).mem_iff.mpr
        (List.mem_cons_of_mem _ hd))
  | revised e path h c m cs c' m' hp hq hr =>
      obtain ⟨d', hd', rfl | ⟨rfl, -, hc, -⟩⟩ := exists_of_forall₂ (census_revised hp hq hr.kind.1) d hd
      · exact Or.inl hd'
      · obtain rfl : c = .leaf k := hc.symm.trans hk
        cases hr with
        | remark _ _ _ hc => cases hc
        | leaf l n key k l' m hu =>
            refine Or.inr ⟨l, n, key, d.handle, rfl, hu, ?_⟩
            exact Outline.covers_self (Outline.handle_mem_of_census hd)
  | supplanted l n path key q c nq before after h s m cs hu hp =>
      -- What is in the scope is dropped together with it.
      by_cases hx : d.handle ∈ (Outline.node h (.scope s) m cs).handles
      · refine Or.inr ⟨l, n, key, h, rfl, hu, ?_⟩
        rw [hp]
        exact Outline.covers_plug _ hx
      · rw [Draft.census, hp] at hd
        exact Or.inl (mem_census_plug_of_not_mem hd hx)
  | left => exact Or.inl hd

theorem origin (ht : Turn P e Q) {d : Entry} (hd : d ∈ Q.census) (hlt : d.handle < P.next) :
    ∃ d₀ ∈ P.census, Stays d₀ d := by
  cases ht with
  | added e c' n path c m cs hd' hp hc hn =>
      have hadd := Draft.census_added (m := n) hp (Event.isDeclaration hd') hn
      rcases List.mem_cons.mp (hadd.mem_iff.mp hd) with rfl | hd
      · exact absurd hlt (Nat.lt_irrefl _)
      · exact ⟨d, hd, .refl d⟩
  | revised e path h c m cs c' m' hp hq hr =>
      have hcensus : List.Forall₂ (Revised h _ c c' m') _ _ := census_revised hp hq hr.kind.1
      obtain ⟨d₀, hd₀, hrev⟩ := exists_of_forall₂ (List.Forall₂.flip hcensus) d hd
      exact ⟨d₀, hd₀, Revised.stays hrev hr.kind.2.2 hq⟩
  | supplanted l n path key q c nq before after h s m cs hu hp =>
      have hx : d.handle ∉ (Outline.node P.next (.leaf l) n []).handles := by
        simpa using Nat.ne_of_lt hlt
      refine ⟨d, ?_, .refl d⟩
      rw [Draft.census, hp]
      exact mem_census_plug_of_not_mem hd hx
  | left => exact ⟨d, hd, .refl d⟩

section

variable {path : List Frame} {x y : Outline} {h k : Handle}

theorem next_not_mem (hv : P.Standing) (hp : P.outline = plug path x) :
    P.next ∉ pathHandles path ∧ P.next ∉ x.handles := by
  have hnew : P.next ∉ P.outline.handles := fun hm =>
    Nat.lt_irrefl _ (hv.fresh _ (List.mem_append_left _ hm))
  rwa [hp, (Outline.handles_plug path x).mem_iff, List.mem_append, not_or] at hnew

theorem covers_added {d c : Content} {n m : Notes} {cs : List Outline} (hv : P.Standing)
    (hp : P.outline = plug path (.node P.current c m cs))
    (hc : (plug path (.node P.current c m (cs ++ [.node P.next d n []]))).Covers k P.next) :
    k = P.next ∨ P.outline.Covers k P.current := by
  obtain ⟨hpath, hx⟩ := next_not_mem hv hp
  rw [hp]
  refine Outline.Covers.of_plug_new hpath (by simp) (fun k hk => ?_) hc
  rw [Outline.covers_node] at hk
  rcases hk with ⟨rfl, -⟩ | ⟨z, hz, hk⟩
  · exact Or.inr (Outline.covers_handle (Outline.handle_mem_handles _))
  · rcases List.mem_append.mp hz with hz | hz
    · refine absurd ?_ hx
      rw [Outline.handles_node]
      exact List.mem_cons_of_mem _ (Outline.handles_subset hz hk.mem)
    · cases List.mem_singleton.mp hz
      rw [Outline.covers_node] at hk
      exact Or.inl (by simpa using hk)

theorem covers_supplanted {l : Leaf} {n m : Notes} {s : Scope} {cs : List Outline} (hv : P.Standing)
    (hp : P.outline = plug path (.node h (.scope s) m cs))
    (hc : (plug path (.node P.next (.leaf l) n [])).Covers k P.next) :
    k = P.next ∨ P.outline.Covers k h := by
  rw [hp]
  refine Outline.Covers.of_plug_new (next_not_mem hv hp).1 (by simp) (fun k hk => ?_) hc
  rw [Outline.covers_node] at hk
  exact Or.inl (by simpa using hk)

end

theorem enters {s : Scope} {n : Notes} (ht : Turn P (.enter s n) Q) (hv : P.Standing) :
    ∃ h place, Q.entered = (h, s.qualify P.name) :: P.entered ∧
      (place = P.current ∨ P.scopeUnder? (s.qualify P.name) = some place) ∧
      ∀ k < P.next, Q.outline.Covers k h → P.outline.Covers k place := by
  cases ht with
  | added e d m path c m' cs hd hp =>
      refine ⟨P.next, P.current, rfl, Or.inl rfl, fun k hk hc => ?_⟩
      exact (covers_added hv hp hc).resolve_left (Nat.ne_of_lt hk)
  | revised e path h c m cs c' m' hp hq hr =>
      have hturn := Turn.revised (.enter s n) path h c m cs c' m' hp hq hr
      cases hr with
      | scope _ _ t _ hu hn =>
          refine ⟨h, h, rfl, Or.inr hu, fun k hk hc => hturn.covers ?_ hc⟩
          obtain ⟨d, hd, rfl, -⟩ := Draft.exists_of_isScopeAt (List.find?_some hu)
          exact hv.lt_next hd

/-- A leaf that arrives is part of the draft afterwards. What is above it is not new. -/
theorem declares {l : Leaf} {n : Notes} (ht : Turn P (.declare l n) Q) (hv : P.Standing) :
    ∃ d ∈ Q.census, ∃ l', d.content = .leaf l' ∧ l.Within l' ∧ n.comments ⊆ d.notes.comments ∧
      ∃ place, (place = P.current ∨ ∃ key, P.previous? (l.keys P.name) = some (key, place)) ∧
        ∀ k < P.next, Q.outline.Covers k d.handle → P.outline.Covers k place := by
  cases ht with
  | added e d m path c m' cs hd hp hc hn =>
      cases hd
      have hadd := Draft.census_added (d := .leaf l) (m := n) hp rfl hn
      refine ⟨_, hadd.mem_iff.mpr List.mem_cons_self, l, rfl, .same l, List.Subset.refl _, P.current,
        Or.inl rfl, fun k hk hc => ?_⟩
      exact (covers_added hv hp hc).resolve_left (Nat.ne_of_lt hk)
  | revised e path h c m cs c' m' hp hq hr =>
      have hturn := Turn.revised (.declare l n) path h c m cs c' m' hp hq hr
      cases hr with
      | leaf _ _ key k l' _ hu hl hm =>
          refine ⟨_, Outline.mem_census_plug "" path rfl, l', rfl, hl, hm, h, Or.inr ⟨key, hu⟩,
            fun k hk hc => hturn.covers ?_ hc⟩
          obtain ⟨d, hd, rfl⟩ := hv.indexed _ (Draft.mem_of_previous hu).2
          exact hv.lt_next hd
  | supplanted _ _ path key q d nq before after h s m cs hu hp =>
      refine ⟨_, Outline.mem_census_plug "" _ rfl, l, rfl, .same l, List.Subset.refl _, h,
        Or.inr ⟨key, hu⟩, fun k hk hc => ?_⟩
      exact (covers_supplanted hv hp hc).resolve_left (Nat.ne_of_lt hk)

end Turn

end Reconcile.Merge
