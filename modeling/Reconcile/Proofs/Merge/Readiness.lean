import Reconcile.Proofs.Merge.Turn

namespace Reconcile.Merge

open Outline (plug)

variable {o : Options} {P Q : Draft} {e : Event}

namespace Turn

theorem sound_change {path : List Frame} {x y : Outline} (hv : P.Standing)
    (hfree : P.outline.conflictFree = true) (hp : P.outline = plug path x)
    (hxy : x.sound = true → y.sound = true) : (plug path y).sound = true := by
  refine Outline.sound_plug_of (hp ▸ hv.sound) hxy ?_
  rintro fr rest rfl ha
  cases fr with
  | node => exact ha
  | left =>
      rw [hp] at hfree
      cases @Outline.conflictFree_of_plug _ rest hfree

theorem standing_added {d : Content} {n : Notes} {path : List Frame} {c : Content} {m : Notes}
    {cs : List Outline} (hv : P.Standing) (hfree : P.outline.conflictFree = true)
    (hd : e.declaration? = some (d, n)) (hp : P.outline = plug path (.node P.current c m cs))
    (hc : c.isContainer = true) (hn : c.qualify (pathName "" path) = P.name) :
    Draft.Standing ⟨plug path (.node P.current c m (cs ++ [.node P.next d n []])), P.loose,
      P.index.insertAll (d.keys P.name) P.next, P.opened P.next e, P.conflicts, P.next + 1⟩ := by
  have hdecl := Event.isDeclaration hd
  have he : Edit ⟨"", ""⟩ P.next true 1 (.node P.current c m cs)
      (.node P.current c m (cs ++ [.node P.next d n []])) := .grow _ _ _ _ _ _ hc hdecl
  have hadd := Draft.census_added (m := n) hp hdecl hn
  have hhandles := hv.changed (Draft.handles_edit hp he)
  refine ⟨hhandles.1, hhandles.2, sound_change hv hfree hp he.sound, ?_, ?_, ?_⟩
  · exact hv.root_change hp fun _ => ⟨he.handle_eq, he.content?⟩
  · have old : ∀ x ∈ P.entered, ∃ d' ∈ (plug path (.node P.current c m
        (cs ++ [.node P.next d n []]))).census "", d'.handle = x.1 ∧
          ∃ s, d'.content = .scope s ∧ s.qualify d'.outer = x.2 := by
      intro x hx
      obtain ⟨d', hd', h⟩ := hv.entered x hx
      exact ⟨d', hadd.mem_iff.mpr (List.mem_cons_of_mem _ hd'), h⟩
    cases e with
    | enter s k =>
        cases hd
        intro x hx
        rcases List.mem_cons.mp hx with rfl | hx
        · exact ⟨_, hadd.mem_iff.mpr List.mem_cons_self, rfl, s, rfl, rfl⟩
        · exact old x hx
    | leave | declare | remark | carry => exact old
  · intro x hx
    rcases mem_insertAll.mp hx with hx | ⟨-, hx⟩
    · obtain ⟨d', hd', hh⟩ := hv.indexed x hx
      exact ⟨d', hadd.mem_iff.mpr (List.mem_cons_of_mem _ hd'), hh⟩
    · exact ⟨_, hadd.mem_iff.mpr List.mem_cons_self, hx.symm⟩

theorem standing_revised {path : List Frame} {h : Handle} {c c' : Content} {m m' : Notes}
    {cs : List Outline} (hv : P.Standing) (hfree : P.outline.conflictFree = true)
    (hp : P.outline = plug path (.node h c m cs))
    (hq : c'.qualify (pathName "" path) = c.qualify (pathName "" path))
    (hr : Revises P h (pathName "" path) e c c' m') :
    Draft.Standing ⟨plug path (.node h c' m' cs), P.loose, P.index, P.opened h e, P.conflicts,
      P.next⟩ := by
  obtain ⟨hdecl, hcont, hscope⟩ := hr.kind
  have stays : ∀ d ∈ P.census, ∃ d' ∈ (plug path (.node h c' m' cs)).census "", Stays d d' := by
    intro d hd
    obtain ⟨d', hd', hrev⟩ := exists_of_forall₂ (census_revised hp hq hdecl) d hd
    exact ⟨d', hd', Revised.stays hrev hscope hq⟩
  have hhandles := hv.changed (Draft.handles_changed (x := .node h c m cs) (y := .node h c' m' cs)
    (j := 0) [] hp (by simp))
  rw [List.append_nil] at hhandles
  refine ⟨hhandles.1, hhandles.2, sound_change hv hfree hp (by simp [hcont]), ?_, ?_, ?_⟩
  · refine hv.root_change hp fun _ => ⟨rfl, fun hc => ?_⟩
    cases hc
    cases hr
    rfl
  · have old : ∀ x ∈ P.entered, ∃ d' ∈ (plug path (.node h c' m' cs)).census "", d'.handle = x.1 ∧
        ∃ s, d'.content = .scope s ∧ s.qualify d'.outer = x.2 := by
      intro x hx
      obtain ⟨d, hd, hh, s, hs, hname⟩ := hv.entered x hx
      obtain ⟨d', hd', hstays⟩ := stays d hd
      obtain ⟨t, ht, hname'⟩ := hstays.exists_scope hs
      exact ⟨d', hd', hstays.handle.trans hh, t, ht, hname'.trans hname⟩
    cases hr with
    | scope s n t _ hu hn =>
        intro x hx
        rcases List.mem_cons.mp hx with rfl | hx
        · exact ⟨_, Outline.mem_census_plug "" path rfl, rfl, s, rfl, hq.trans hn⟩
        · exact old x hx
    | leaf | remark => exact old
  · intro x hx
    obtain ⟨d, hd, hh⟩ := hv.indexed x hx
    obtain ⟨d', hd', hstays⟩ := stays d hd
    exact ⟨d', hd', hstays.handle.trans hh⟩

theorem standing_supplanted {l : Leaf} {n : Notes} {path : List Frame} {fr : Frame} {h : Handle}
    {s : Scope} {m : Notes} {cs : List Outline} (hv : P.Standing)
    (hfree : P.outline.conflictFree = true)
    (hp : P.outline = plug (fr :: path) (.node h (.scope s) m cs))
    (hen : ∀ x ∈ P.entered, x.1 ∉ (Outline.node h (.scope s) m cs).handles) :
    (P.supplant (fr :: path) (.node h (.scope s) m cs) l n).Standing := by
  have keep {d : Entry} (hd : d ∈ P.census) (hx : d.handle ∉ (Outline.node h (.scope s) m cs).handles) :
      d ∈ (plug (fr :: path) (.node P.next (.leaf l) n [])).census "" := by
    rw [Draft.census, hp] at hd
    exact mem_census_plug_of_not_mem hd hx
  have hhandles := hv.changed (Draft.handles_changed (y := .node P.next (.leaf l) n []) (j := 1)
    [.node h (.scope s) m cs] hp (by
      rw [List.flatMap_singleton]
      exact List.perm_append_comm))
  refine ⟨hhandles.1, hhandles.2, sound_change hv hfree hp (by simp), ?_, ?_, ?_⟩
  · exact hv.root_change hp (by simp)
  · intro x hx
    obtain ⟨d, hd, hh, hs⟩ := hv.entered x hx
    exact ⟨d, keep hd (hh ▸ hen x hx), hh, hs⟩
  · intro x hx
    rcases mem_insertAll.mp hx with hx | ⟨-, hx⟩
    · obtain ⟨hx, hkept⟩ := List.mem_filter.mp hx
      obtain ⟨d, hd, hh⟩ := hv.indexed x hx
      refine ⟨d, keep hd ?_, hh⟩
      simpa [hh] using hkept
    · exact ⟨_, Outline.mem_census_plug "" (fr :: path) rfl, hx.symm⟩

theorem standing (ht : Turn P e Q) (hv : P.Standing) (hfree : P.outline.conflictFree = true) :
    Q.Standing := by
  cases ht with
  | added e d n path c m cs hd hp hc hn => exact standing_added hv hfree hd hp hc hn
  | revised e path h c m cs c' m' hp hq hr => exact standing_revised hv hfree hp hq hr
  | supplanted l n path key q c nq before after h s m cs hu hp hen =>
      exact standing_supplanted hv hfree hp hen
  | left => exact { hv with entered := fun x hx => hv.entered x (List.mem_of_mem_tail hx) }

end Turn

/-- An event can take its turn. A header fits in the place of the scope that it finds, and what a leaf
meets is not around the scope that is being filled. -/
structure Draft.Ready (P : Draft) (e : Event) : Prop where
  found : P.FindsNamed e
  header : ∀ s n, e = .enter s n → ∀ h, P.scopeUnder? (s.qualify P.name) = some h →
    ∀ d ∈ P.census, d.handle = h → s.qualify d.outer = s.qualify P.name
  leaf : ∀ l n, e = .declare l n → ∀ key h, P.previous? (l.keys P.name) = some (key, h) →
    ∀ x ∈ P.entered, ¬ P.outline.Covers h x.1

theorem exists_override_enter {s : Scope} {n : Notes} (hv : P.Standing) (hr : P.Ready (.enter s n)) :
    ∃ Q, Step o P (.enter s n) Q ∨ Override P (.enter s n) Q := by
  cases hu : P.scopeUnder? (s.qualify P.name) with
  | none =>
      obtain ⟨path, c, m, cs, hp, hc, hn, -⟩ := hv.exists_current
      exact ⟨_, Or.inl (.newScope s n path c m cs hu hp hc hn)⟩
  | some h =>
      obtain ⟨path, t, m, cs, hp⟩ := Draft.exists_scope hu
      by_cases hts : t = s
      · subst hts
        exact ⟨_, Or.inl (.knownScope t n path h m cs hu hp)⟩
      · have hd := Draft.mem_census_of_plug path hp rfl
        have hq : s.qualify (pathName "" path) = t.qualify (pathName "" path) :=
          (hr.header s n rfl h hu _ hd rfl).trans (hr.found.qualify hu hp).symm
        exact ⟨_, Or.inr (.header s n path h t m cs hu hp hts hq)⟩

theorem exists_override_declare {l : Leaf} {n : Notes} (hv : P.Standing)
    (hfree : P.outline.conflictFree = true) (hr : P.Ready (.declare l n)) :
    ∃ Q, Step o P (.declare l n) Q ∨ Override P (.declare l n) Q := by
  cases hu : P.previous? (l.keys P.name) with
  | none =>
      obtain ⟨path, c, m, cs, hp, hc, hn, -⟩ := hv.exists_current
      exact ⟨_, Or.inl (.newLeaf l n path c m cs hu hp hc hn)⟩
  | some x =>
      obtain ⟨key, h⟩ := x
      obtain ⟨path, c, m, cs, hp, hd⟩ := hv.exists_previous hu
      cases c with
      | tree | visibilityGroup | group => cases hd
      | leaf k =>
          cases hl : k.compatible l with
          | true => exact ⟨_, Or.inl (.unitedLeaf l n path key h k m cs hu hp hl)⟩
          | false => exact ⟨_, Or.inr (.version l n path key h k m cs hu hp hl)⟩
      | scope s =>
          obtain ⟨fr, rest, rfl⟩ := hv.exists_frame hp rfl
          cases fr with
          | left =>
              rw [hp] at hfree
              cases @Outline.conflictFree_of_plug _ rest hfree
          | node q d nq before after =>
              refine ⟨_, Or.inr (.supplanted l n rest key q d nq before after h s m cs hu hp ?_)⟩
              intro x hx hm
              refine hr.leaf l n rfl key h hu x hx ?_
              rw [hp]
              exact Outline.covers_plug _ hm

/-- Whatever is ready takes its turn, and the merge does to its state what is done to the draft. -/
theorem Draft.Ready.exists_turn {s : State} (hr : P.Ready e) (hk : o.keep = .right)
    (hv : P.Standing) (hfree : P.outline.conflictFree = true) (he : e.isCarry = false)
    (hd : s.Depicts P) :
    ∃ s' Q, s.step o e = .ok s' ∧ s'.Depicts Q ∧ Turn P e Q := by
  have hstep : ∃ Q, Step o P e Q ∨ Override P e Q := by
    cases e with
    | enter s n => exact exists_override_enter hv hr
    | leave => exact ⟨_, Or.inl .left⟩
    | declare l n => exact exists_override_declare hv hfree hr
    | remark comments =>
        obtain ⟨path, c, m, cs, hp, -, hn, -⟩ := hv.exists_current
        exact ⟨_, Or.inl (.remarked comments path c m cs hp hn)⟩
    | carry => cases he
  obtain ⟨Q, hs | ho⟩ := hstep
  · obtain ⟨s', hs', hd'⟩ := hs.depicts hd hv
    exact ⟨s', Q, hs', hd', hs.turn hk hv hr.found⟩
  · obtain ⟨s', hs', hd'⟩ := ho.depicts hk hd hv
    exact ⟨s', Q, hs', hd', ho.turn hr.found⟩

end Reconcile.Merge
