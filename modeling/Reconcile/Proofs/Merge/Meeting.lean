import Reconcile.Proofs.Forest.Identity
import Reconcile.Proofs.Merge.Stance

namespace Reconcile.Merge

open Outline (plug)

variable {o : Options} {s : State} {P Q : Draft} {e : Event} {es : List (String × Event)}
  {r r' : Conflict} {x : Outline} {a b : Handle} {path : List Frame} {before after : List Outline}

theorem exists_frame_of_disputes (hd : (plug path x).handles.Nodup) (ha : a ∈ x.declared)
    (h : (plug path x).Disputes a b) : x.Disputes a b ∨ ∃ inner k labels n r outer,
      path = inner ++ .left k .declarations labels n r :: outer ∧ b ∈ r.children.map Outline.handle := by
  induction path generalizing x with
  | nil => exact Or.inl h
  | cons fr path ih =>
      have hfill : (fr.fill x).handles.Nodup :=
        (@Outline.nodup_plug_iff path (fr.fill x)).mp hd |>.2.1
      have hdis := (nodup_fill hfill).2.2
      -- What is beside the way down does not have the declaration.
      have beside {z l r : Outline} (hz : z ∈ fr.siblings) (hc : z.HasConflict .declarations l r)
          (hl : a ∈ l.declared) : False := by
        obtain ⟨k, labels, n, hm⟩ := hc
        have hsub := (Outline.sublist_handles_of_mem_subtrees hm).subset
        have haz : a ∈ z.handles := hsub (by simp [l.declared_subset hl])
        exact hdis (List.mem_cons_of_mem _ (List.mem_flatMap.mpr ⟨z, hz, haz⟩)) (x.declared_subset ha)
      have hafill : a ∈ (fr.fill x).declared := by
        cases fr with
        | node => simp [Frame.fill, ha]
        | left => exact ha
      rcases ih hd hafill h with ⟨l, r, hc, hl, hb⟩ | ⟨inner, k, labels, n, r, outer, rfl, hb⟩
      · cases fr with
        | node k c n before after =>
            rw [Frame.fill, Outline.hasConflict_node] at hc
            obtain ⟨z, hz, hc⟩ := hc
            simp only [List.mem_append, List.mem_cons] at hz
            rcases hz with hz | rfl | hz
            · exact (beside (List.mem_append_left _ hz) hc hl).elim
            · exact Or.inl ⟨l, r, hc, hl, hb⟩
            · exact (beside (List.mem_append_right _ hz) hc hl).elim
        | left k form labels n r' =>
            rw [Frame.fill, Outline.hasConflict_conflict] at hc
            rcases hc with ⟨rfl, rfl, rfl⟩ | hc | hc
            · exact Or.inr ⟨[], k, labels, n, r', path, rfl, hb⟩
            · exact Or.inl ⟨l, r, hc, hl, hb⟩
            · exact (beside (List.mem_singleton_self _) hc hl).elim
      · exact Or.inr ⟨fr :: inner, k, labels, n, r, outer, rfl, hb⟩

theorem over_of_disputes {q h k : Handle} {d c : Content} {nq nk m n : Notes} {old labels : Labels}
    {cs : List Outline} {right : Outline} {l : Leaf}
    (hd : (plug path (.node q d nq (before ++ .conflict k .headers old nk (.node h c m cs) right ::
      after))).handles.Nodup) (hc : c.isDeclaration = true)
    (h' : (plug path (.node q d nq (before ++ .conflict k .headers old nk (.node h c m cs) right ::
      after))).Disputes h b) (j i : Handle) (n' nj : Notes) (left : Outline) :
    (plug path (.node q d nq (before ++ .conflict i .declarations labels n' left
      (.node j .tree nj [.node a (.leaf l) n []]) :: after))).Over b a := by
  have hframe := @exists_frame_of_disputes (.node h c m cs) h b
    (.left k .headers old nk right :: .node q d nq before after :: path) hd (by simp [hc]) h'
  rcases hframe with ⟨L, R, hconf, hL, -⟩ | ⟨inner, k', labels', n', R, outer, heq, hb⟩
  · -- nothing in a scope disputes the scope
    rw [Outline.hasConflict_node] at hconf
    obtain ⟨z, hz, k', labels', n', hm⟩ := hconf
    have hz' := (Outline.sublist_handles_of_mem_subtrees hm).subset (a := h) (by simp [L.declared_subset hL])
    have hnode := (@Outline.nodup_plug_iff
      (.left k .headers old nk right :: .node q d nq before after :: path) (.node h c m cs)).mp hd
    have hself := (List.nodup_cons.mp (Outline.handles_node .. ▸ hnode.2.1)).1
    exact absurd (List.mem_flatMap.mpr ⟨z, hz, hz'⟩) hself
  · match inner, heq with
    | [], heq => cases heq
    | [_], heq => cases heq
    | _ :: _ :: inner, heq =>
        obtain ⟨-, -, rfl⟩ : _ ∧ _ ∧ path = inner ++ .left k' .declarations labels' n' R :: outer := by
          simpa using heq
        rw [Outline.plug_append]
        refine ⟨_, R, Outline.hasConflict_at outer k' _ labels' n' _ R, hb, ?_⟩
        refine List.map_subset _ (Outline.rivals_plug inner) ?_
        simp [ConflictForm.rivals, Outline.children]

theorem exists_header_record (hd : s.Depicts P) (hv : P.Valid) (ha : P.Accounts)
    (hP : ∀ r ∈ P.conflicts, P.Stands r) {l right : Outline}
    (hc : P.outline.HasConflict .headers l right) :
    ∃ r ∈ P.conflicts, r.left = l.handle ∧ ∃ t, P.Sets r.right (.scope t) := by
  have hrival : right ∈ P.outline.rivals := by
    obtain ⟨k, labels, n, hm⟩ := hc
    exact List.mem_flatMap.mpr ⟨_, hm, List.mem_singleton_self _⟩
  have hmem := ha.rights.subset (List.mem_map_of_mem (List.mem_append_left _ hrival))
  obtain ⟨r, hr, hright⟩ := List.mem_map.mp hmem
  refine ⟨r, hr, ?_⟩
  cases hP r hr with
  | header t ht b hb hplace =>
      refine ⟨?_, t, ht⟩
      rcases hplace with hloose | ⟨l', r', hc', hl', hr'⟩
      · exact absurd (hright ▸ hloose) (ha.disjoint (List.mem_map_of_mem hrival))
      · obtain ⟨-, rfl, -⟩ := hd.outline.conflict_unique hv.nodup_outline hc' hc
          (Or.inr (hr'.trans hright))
        exact hl'.symm
  | leaf l' hl' hdis hf =>
      obtain ⟨n, hn⟩ := hl'
      cases ha.eq_of_handle (List.mem_append_left _ hrival) hn hright.symm
      obtain ⟨k, labels, m, hm⟩ := hc
      have hsound := (Outline.sound_conflict ..).mp (Outline.sound_of_mem_subtrees hv.sound hm)
      cases hsound.1.2

theorem Runs.conflicts (h : Runs o P es Q) : ∃ records, Q.conflicts = P.conflicts ++ records := by
  induction h with
  | nil => exact ⟨[], by simp⟩
  | cons hs _ ih =>
      obtain ⟨-, -, records, -, -, hrec, -⟩ := hs.lasts.contests
      obtain ⟨more, hmore⟩ := ih
      exact ⟨records ++ more, by rw [hmore, hrec, List.append_assoc]⟩

theorem Runs.recorded_at {before after : List Conflict} (h : Runs o P es Q)
    (hc : Q.conflicts = P.conflicts ++ (before ++ r :: after)) : ∃ es₁ e es₂ R R',
      Runs o P es₁ R ∧ Step o R e R' ∧ R.conflicts = P.conflicts ++ before ∧
      R'.conflicts = R.conflicts ++ [r] ∧ Runs o R' es₂ Q := by
  induction h generalizing before with
  | nil => simp at hc
  | @cons P R Q e es hs hrun ih =>
      obtain ⟨-, -, records, -, -, hrec, -, hcases⟩ := hs.lasts.contests
      have later (before' : List Conflict) (hb : before = records ++ before') : ∃ es₁ e es₂ S S',
          Runs o P es₁ S ∧ Step o S e S' ∧ S.conflicts = P.conflicts ++ before ∧
          S'.conflicts = S.conflicts ++ [r] ∧ Runs o S' es₂ Q := by
        obtain ⟨es₁, e', es₂, S, S', h₁, hs', hS, hS', h₂⟩
          := @ih before' (by rw [hrec, hc, hb, List.append_assoc, List.append_assoc])
        refine ⟨(P.name, e) :: es₁, e', es₂, S, S', .cons hs h₁, hs', ?_, hS', h₂⟩
        rw [hS, hrec, hb, List.append_assoc]
      rcases hcases with rfl | ⟨r₁, rfl, -⟩
      · exact later before rfl
      · obtain ⟨more, hmore⟩ := hrun.conflicts
        rw [hrec, hc, List.append_assoc, List.append_cancel_left_eq] at hmore
        cases before with
        | nil =>
            cases hmore
            exact ⟨[], e, es, P, R, .nil P, hs, by simp, hrec, hrun⟩
        | cons r₂ before =>
            obtain ⟨rfl, -⟩ := List.cons.inj hmore
            exact later before rfl

/-- A leaf that is recorded comes next to the leaves recorded for the same declaration before it if
no header has been, and inside the conflicts of all of them if one has. -/
theorem Step.meeting (hd : s.Depicts P) (hv : P.Valid) (ha : P.Accounts)
    (hP : ∀ r ∈ P.conflicts, P.Stands r) {leaf : Leaf} {n : Notes}
    (hs : Step o P (.declare leaf n) Q) (hc : Q.conflicts = P.conflicts ++ [r])
    (hr' : r' ∈ P.conflicts) (hleft : r'.left = r.left) {l' : Leaf} (hl' : P.Sets r'.right (.leaf l')) :
    (Q.outline.Together r'.right r.right ∧
      ∀ r'' ∈ P.conflicts, r''.left = r.left → ∃ l, P.Sets r''.right (.leaf l)) ∨
    (Q.outline.Over r'.right r.right ∧
      ∃ r'' ∈ P.conflicts, r''.left = r.left ∧ ∃ t, P.Sets r''.right (.scope t)) := by
  obtain ⟨hdis, hflanks⟩ : P.outline.Disputes r.left r'.right ∧
      ((∃ b, P.outline.Heads r.left b) ∨ P.outline.Flanks r.left r'.right) := by
    rw [← hleft]
    cases hP r' hr' with
    | header t ht => cases ha.sets_unique ht hl'
    | leaf l _ hd hf => exact ⟨hd, hf⟩
  cases hs with
  | newLeaf | unitedLeaf | keptLeaf => simp at hc
  | joinedLeaf _ _ path key q old nq b nb before after h c m cs right nr rs hu hp =>
      cases List.append_cancel_left hc
      have hheads {k : Handle} : ¬ P.outline.Heads h k :=
        hd.not_heads hv (.left q .declarations old nq (.node right .tree nr rs) :: path) hp
      have hconf : P.outline.HasConflict .declarations (.node b .tree nb (before ++ .node h c m cs :: after))
          (.node right .tree nr rs) := hp ▸ Outline.hasConflict_at path q .declarations old nq _ _
      obtain ⟨l, r, hconf', hl, hr⟩ := hflanks.resolve_left fun ⟨_, hb⟩ => hheads hb
      obtain ⟨k, labels, n', p, -, -, hside, -⟩ := hd.outline.hasConflict hconf
      obtain ⟨k', labels', n'', p', -, -, hside', -⟩ := hd.outline.hasConflict hconf'
      have heq := hside.handle_eq_of_child hside' (by simp [Outline.children]) hl
      obtain ⟨-, -, rfl⟩ := hd.outline.conflict_unique hv.nodup_outline hconf hconf' (Or.inl heq)
      refine Or.inl ⟨⟨_, _, Outline.hasConflict_at path q .declarations old nq _ _, ?_, ?_⟩, ?_⟩
      · rw [Outline.children, List.map_append]
        exact List.mem_append_left _ hr
      · simp [Outline.children]
      · intro r'' hr'' hleft''
        cases hP r'' hr'' with
        | header _ _ k hk => exact absurd (hleft'' ▸ hk) hheads
        | leaf l'' hl'' => exact ⟨l'', hl''⟩
  | opposedLeaf _ _ path key q d nq before after h c m cs hu hp hside =>
      cases List.append_cancel_left hc
      rcases hflanks with ⟨k, hk⟩ | hf
      · exact absurd hk (hd.not_heads hv path hp)
      · exact absurd hf (hd.not_flanks hv hp hside)
  | opposedHeaders _ _ path key q d nq before after k old nk h c m cs right hu hp =>
      cases List.append_cancel_left hc
      have hdecl := hv.mem_keys (.left k .headers old nk right :: .node q d nq before after :: path) hu hp
      have hn := hv.nodup_outline
      have hconf : P.outline.HasConflict .headers (.node h c m cs) right := hp ▸
        Outline.hasConflict_at (.node q d nq before after :: path) k .headers old nk _ _
      rw [hp] at hn hdis
      exact Or.inr ⟨over_of_disputes hn hdecl.1 hdis _ _ _ _ _, exists_header_record hd hv ha hP hconf⟩

theorem Outcome.gathers {trees : List Forest} {os : List Outline} {out : Output} {O : Outline}
    (h : Outcome o trees os Q out O) : Q.outline.Gathers O := by
  rw [h.coalesced]
  exact Outline.gathers_coalescedWithin _ h.valid.sound h.runs.tidy

theorem Runs.gathers (hr : Runs o P es Q) (hd : s.Depicts P) (hv : P.Valid) :
    P.outline.Gathers Q.outline := by
  induction hr generalizing s with
  | nil => exact .refl _
  | cons hs _ ih =>
      obtain ⟨gone, hw, -⟩ := hs.widens hd hv
      obtain ⟨s', -, hd'⟩ := hs.depicts hd hv.standing
      exact hw.gathers.trans (ih hd' (hs.valid hv))

theorem Runs.stands (hr : Runs o .empty es Q) : ∀ r ∈ Q.conflicts, Q.Stands r := by
  refine (hr.invariant (I := fun P => (∃ s, State.Depicts s P) ∧ ∀ r ∈ P.conflicts, P.Stands r)
    Draft.valid_empty ?_ ⟨⟨_, State.Depicts.empty⟩, by simp [Draft.empty]⟩).2
  rintro P Q e hv hs ⟨⟨s, hd⟩, hP⟩
  obtain ⟨s', -, hd'⟩ := hs.depicts hd hv.standing
  exact ⟨⟨s', hd'⟩, hs.stands hd hv hP⟩

theorem Runs.sets (hr : Runs o P es Q) {c : Content} (h : P.Sets a c) : Q.Sets a c := by
  induction hr with
  | nil => exact h
  | cons hs _ ih => exact ih (hs.lasts.sets h)

theorem Runs.accounts (hr : Runs o .empty es Q) : Q.Accounts :=
  hr.invariant (I := Draft.Accounts) Draft.valid_empty (fun _ hs => hs.accounts) Draft.accounts_empty

def Output.IsLeaf (out : Output) (h : Handle) : Prop :=
  ∃ l, out.forest.kind h = .ok (.plain (.leaf l))

theorem Outcome.kind_of_sets {trees : List Forest} {os : List Outline} {out : Output} {O : Outline}
    (h : Outcome o trees os Q out O) {c : Content} (hs : Q.Sets a c) :
    out.forest.kind a = .ok (.plain c) := by
  obtain ⟨n, hn⟩ := hs
  have holds : ∃ p, (Outline.node a c n []).Holds out.forest.look p := by
    rcases List.mem_append.mp hn with hn | hn
    · exact h.holds.of_mem_subtrees (O.rivals_subset (h.coalesces.rivals.mem_iff.mpr hn))
    · exact ⟨none, h.loose _ hn⟩
  obtain ⟨p, hp⟩ := holds
  exact Forest.kind_of_look ((Outline.holds_node ..).mp hp).1

theorem Outcome.isLeaf_iff {trees : List Forest} {os : List Outline} {out : Output} {O : Outline}
    (h : Outcome o trees os Q out O) {es' : List (String × Event)} (hP : Runs o .empty es P)
    (hQ : Runs o P es' Q) (hr : r ∈ P.conflicts) :
    out.IsLeaf r.right ↔ ∃ l, P.Sets r.right (.leaf l) := by
  constructor
  · rintro ⟨l, hl⟩
    cases hP.stands r hr with
    | header t ht => cases hl.symm.trans (h.kind_of_sets (hQ.sets ht))
    | leaf l' hl' => exact ⟨l', hl'⟩
  · rintro ⟨l, hl⟩
    exact ⟨l, h.kind_of_sets (hQ.sets hl)⟩

theorem Step.declares (hs : Step o P e Q) (hc : Q.conflicts = P.conflicts ++ [r])
    (ha : Q.Accounts) {l : Leaf} (hl : Q.Sets r.right (.leaf l)) : ∃ leaf n, e = .declare leaf n := by
  cases e with
  | declare leaf n => exact ⟨leaf, n, rfl⟩
  | enter t n => cases ha.sets_unique hl (hs.sets_header hc)
  | leave | remark | carry => cases hs <;> simp at hc

/-- Two leaves that contest one declaration are in one conflict of the output exactly if no header
has contested the declaration before the later one of them. -/
theorem leaves_meet (labels : Labels) (trees : List Forest) (hc : ∀ t ∈ trees, t.ConflictFree) :
    ∃ out O, mergeAll ⟨labels, .both⟩ trees = .ok out ∧ out.forest.outline Forest.root = .ok O ∧
      ∀ before r after, out.conflicts = before ++ r :: after → out.IsLeaf r.right →
        ∀ r' ∈ before, r'.left = r.left → out.IsLeaf r'.right →
          (O.Together r'.right r.right ↔ ∀ r'' ∈ before, r''.left = r.left → out.IsLeaf r''.right) := by
  obtain ⟨os, Q, out, O, h⟩ := @exists_outcome ⟨labels, .both⟩ trees (by simp) hc
  refine ⟨out, O, h.merged, h.outline, ?_⟩
  intro before r after hsplit hleaf r' hr' hleft hleaf'
  rw [h.conflicts] at hsplit
  obtain ⟨es₁, e, es₂, P, R, hP, hs, hbefore, hrec, hR⟩ := h.runs.recorded_at hsplit
  have hruns : Runs _ .empty _ R := hP.append (.single hs)
  have hv := hP.valid Draft.valid_empty
  obtain ⟨s, -, hd⟩ := hP.depicts State.Depicts.empty Draft.valid_empty
  obtain ⟨s', -, hd'⟩ := hs.depicts hd hv.standing
  cases hbefore
  have isLeaf_iff {r : Conflict} (hr : r ∈ P.conflicts) :
      out.IsLeaf r.right ↔ ∃ l, P.Sets r.right (.leaf l) := h.isLeaf_iff hP (.cons hs hR) hr
  obtain ⟨l, hl⟩ := (h.isLeaf_iff hruns hR (by simp [hrec])).mp hleaf
  obtain ⟨l', hl'⟩ := (isLeaf_iff hr').mp hleaf'
  obtain ⟨leaf, n, rfl⟩ := hs.declares hrec hruns.accounts hl
  have hlater := (hR.gathers hd' (hs.valid hv)).trans h.gathers
  rcases hs.meeting hd hv hP.accounts hP.stands hrec hr' hleft hl' with ⟨ht, hall⟩ |
    ⟨hover, r'', hr'', hleft'', t, ht⟩
  · exact iff_of_true (hlater.together ht) fun r'' hr'' hleft'' =>
      (isLeaf_iff hr'').mpr (hall r'' hr'' hleft'')
  · refine iff_of_false ((hlater.over hover).not_together h.holds h.nodup) fun hall => ?_
    obtain ⟨l'', hl''⟩ := (isLeaf_iff hr'').mp (hall r'' hr'' hleft'')
    cases hP.accounts.sets_unique ht hl''

def contestedModule : List Forest :=
  [.ofItems [.scope (.moduleNamed "X") {} []], .ofItems [.scope (.classNamed "X" none) {} []],
    .ofConstant "X" "1", .ofConstant "X" "2"]

theorem leaves_meet_constants : (∀ t ∈ contestedModule, t.ConflictFree) ∧
    ∃ out O, mergeAll {} contestedModule = .ok out ∧ out.forest.outline Forest.root = .ok O ∧
      ∀ before r after, out.conflicts = before ++ r :: after → out.IsLeaf r.right →
        ∀ r' ∈ before, r'.left = r.left → out.IsLeaf r'.right →
          (O.Together r'.right r.right ↔ ∀ r'' ∈ before, r''.left = r.left → out.IsLeaf r''.right) :=
  ⟨by decide, leaves_meet ⟨"left", "right"⟩ contestedModule (by decide)⟩

/-- After the class the constants do not meet: each of them is in a conflict of its own. -/
theorem leaves_can_miss : (∀ t ∈ contestedModule, t.ConflictFree) ∧
    ∃ out O r r', mergeAll {} contestedModule = .ok out ∧ out.forest.outline Forest.root = .ok O ∧
      r ∈ out.conflicts ∧ r' ∈ out.conflicts ∧ r.left = r'.left ∧ out.IsLeaf r.right ∧
      out.IsLeaf r'.right ∧ ¬ O.Together r.right r'.right := by
  refine ⟨by decide, _, _, ⟨"::X", 1, 4, ⟨"left", "right"⟩⟩, ⟨"::X", 1, 8, ⟨"left", "right"⟩⟩, rfl, rfl,
    by decide, by decide, rfl, ⟨_, rfl⟩, ⟨_, rfl⟩, by decide⟩

end Reconcile.Merge
