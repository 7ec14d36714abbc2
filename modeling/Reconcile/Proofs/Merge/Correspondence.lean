import Reconcile.Proofs.Merge.Outcome

namespace Reconcile.Merge

open Outline (plug)

/-- A record that a further header has left: when it was made, its left scope was the left side of a
conflict of headers already. -/
def Repeated (o : Options) (events : List Event) (r : Conflict) : Prop :=
  ∃ before scope notes after s s', events = before ++ .enter scope notes :: after ∧
    State.run o {} before = .ok s ∧ s.step o (.enter scope notes) = .ok s' ∧
    s'.conflicts = s.conflicts ++ [r] ∧
    ∃ k labels right, s.forest.parent r.left = .ok (some k) ∧
      s.forest.kind k = .ok (.conflict .headers labels r.left right)

variable {o : Options} {P Q : Draft} {e : Event} {es es' : List (String × Event)} {r : Conflict}

theorem Runs.split (h : Runs o P (es ++ es') Q) : ∃ R, Runs o P es R ∧ Runs o R es' Q := by
  induction es generalizing P with
  | nil => exact ⟨P, .nil P, h⟩
  | cons x es ih =>
      cases h with
      | cons hs hr =>
          obtain ⟨R, hr, hr'⟩ := ih hr
          exact ⟨R, .cons hs hr, hr'⟩

theorem Runs.recorded (h : Runs o P es Q) (hr : r ∈ Q.conflicts) : r ∈ P.conflicts ∨
    ∃ before e after R R', es = before ++ (R.name, e) :: after ∧ Runs o P before R ∧
      Step o R e R' ∧ R'.conflicts = R.conflicts ++ [r] ∧ Runs o R' after Q := by
  induction h with
  | nil => exact Or.inl hr
  | @cons P Q R e es hs hrun ih =>
      rcases ih hr with hr | ⟨before, e', after, S, S', rfl, hb, hs', hc, ha⟩
      · obtain ⟨-, -, records, -, -, hc, -, hrec⟩ := hs.lasts.contests
        rw [hc, List.mem_append] at hr
        rcases hr with hr | hr
        · exact Or.inl hr
        · rcases hrec with rfl | ⟨r', rfl, -⟩
          · cases hr
          · cases List.mem_singleton.mp hr
            exact Or.inr ⟨[], e, es, P, Q, rfl, .nil P, hs, hc, hrun⟩
      · exact Or.inr ⟨(P.name, e) :: before, e', after, S, S', rfl, .cons hs hb, hs', hc, ha⟩

/-- What has been recorded up to now. -/
structure Draft.Accounts (P : Draft) : Prop where
  rights : ((P.outline.rivals ++ P.loose).map Outline.handle).Perm (P.conflicts.map Conflict.right)
  nodup : (P.conflicts.map Conflict.right).Nodup
  old : ∀ r ∈ P.conflicts, r.right < P.next

theorem Draft.accounts_empty : Draft.empty.Accounts := by
  refine ⟨?_, by simp [Draft.empty], by simp [Draft.empty]⟩
  simp [Draft.empty]

theorem Step.accounts (hs : Step o P e Q) (ha : P.Accounts) : Q.Accounts := by
  obtain ⟨new, kept, records, hrivals, hloose, hconflicts, hright, hrec⟩ := hs.lasts.contests
  refine ⟨?_, ?_, ?_⟩
  · have hmap : Q.conflicts.map Conflict.right =
        P.conflicts.map Conflict.right ++ (new ++ kept).map Outline.handle := by
      rw [hconflicts, List.map_append, hright]
    rw [hmap, hloose]
    refine List.Perm.trans ?_ (ha.rights.append_right _)
    rw [← List.map_append]
    refine List.Perm.map _ ((hrivals.append_right _).trans ?_)
    exact Outline.perm_interchange _ _ _ _
  · rw [hconflicts, List.map_append, List.nodup_append']
    refine ⟨ha.nodup, ?_, ?_⟩
    · rcases hrec with rfl | ⟨r, rfl, -⟩ <;> simp
    · intro h hold hnew
      rcases hrec with rfl | ⟨r, rfl, hr, -⟩
      · cases hnew
      · obtain ⟨r', hr', rfl⟩ := List.mem_map.mp hold
        have heq : r'.right = P.next := by simpa [hr] using hnew
        exact Nat.ne_of_lt (ha.old r' hr') heq
  · intro r hr
    rw [hconflicts, List.mem_append] at hr
    rcases hr with hr | hr
    · exact Nat.lt_of_lt_of_le (ha.old r hr) hs.lasts.next
    · rcases hrec with rfl | ⟨r', rfl, hr', hlt⟩
      · cases hr
      · cases List.mem_singleton.mp hr
        rw [hr']
        exact hlt

theorem opposes_at {path : List Frame} {k a b : Handle} {form : ConflictForm} {labels : Labels}
    {n : Notes} {l r : Outline} (ha : a ∈ l.declared) (hb : b ∈ (form.rivals r).map Outline.handle) :
    (plug path (.conflict k form labels n l r)).Opposes a b :=
  ⟨k, form, labels, n, l, r, Outline.subtrees_plug path (Outline.mem_subtrees_self _), ha, hb⟩

/-- A new record is about a loose header, or a rival opposes its left side. -/
theorem Step.records (hv : P.Valid) (hs : Step o P e Q) : ∃ records,
    Q.conflicts = P.conflicts ++ records ∧ ∀ r ∈ records,
      r.right ∈ Q.loose.map Outline.handle ∨ Q.outline.Opposes r.left r.right := by
  cases hs with
  | newScope | knownScope | keptHeader | left | newLeaf | unitedLeaf | keptLeaf | remarked =>
      exact ⟨[], by simp, by simp⟩
  | contestedHeader s n path q c nq before after h t m cs hu hp =>
      refine ⟨_, rfl, fun r hr => Or.inr ?_⟩
      cases List.mem_singleton.mp hr
      refine @opposes_at (.node q c nq before after :: path) _ _ _ _ _ _ _ _ ?_ ?_
      · simp [Content.isDeclaration]
      · simp [ConflictForm.rivals]
  | repeatedHeader s n path q old nq r h t m cs hu hp =>
      refine ⟨_, rfl, fun r hr => Or.inl ?_⟩
      cases List.mem_singleton.mp hr
      simp
  | joinedLeaf l n path key q old nq b nb before after h c m cs r nr rs hu hp =>
      refine ⟨_, rfl, fun r hr => Or.inr ?_⟩
      cases List.mem_singleton.mp hr
      have hd := hv.mem_keys (.node b .tree nb before after ::
        .left q .declarations old nq (.node r .tree nr rs) :: path) hu hp
      refine opposes_at ?_ ?_
      · simp [hd.1]
      · simp [ConflictForm.rivals, Outline.children]
  | opposedLeaf l n path key q d nq before after h c m cs hu hp =>
      refine ⟨_, rfl, fun r hr => Or.inr ?_⟩
      cases List.mem_singleton.mp hr
      have hd := hv.mem_keys (.node q d nq before after :: path) hu hp
      refine @opposes_at (.node q d nq before after :: path) _ _ _ _ _ _ _ _ ?_ ?_
      · simp [hd.1]
      · simp [ConflictForm.rivals, Outline.children]
  | opposedHeaders l n path key q d nq before after k old nk h c m cs r hu hp =>
      refine ⟨_, rfl, fun r hr => Or.inr ?_⟩
      cases List.mem_singleton.mp hr
      have hd := hv.mem_keys (.left k .headers old nk r :: .node q d nq before after :: path) hu hp
      refine @opposes_at (.node q d nq before after :: path) _ _ _ _ _ _ _ _ ?_ ?_
      · simp [hd.1]
      · simp [ConflictForm.rivals, Outline.children]

theorem Step.attested (hv : P.Valid) (hs : Step o P e Q)
    (hP : ∀ r ∈ P.conflicts, r.right ∈ P.loose.map Outline.handle ∨ P.outline.Opposes r.left r.right) :
    ∀ r ∈ Q.conflicts, r.right ∈ Q.loose.map Outline.handle ∨ Q.outline.Opposes r.left r.right := by
  obtain ⟨records, hconflicts, hrec⟩ := hs.records hv
  obtain ⟨-, kept, -, -, hloose, -⟩ := hs.lasts.contests
  intro r hr
  rw [hconflicts, List.mem_append] at hr
  rcases hr with hr | hr
  · refine (hP r hr).imp (fun hm => ?_) hs.lasts.opposes
    rw [hloose, List.map_append]
    exact List.mem_append_left _ hm
  · exact hrec r hr

theorem Step.right_eq (hs : Step o P e Q) (hc : Q.conflicts = P.conflicts ++ [r]) :
    r.right = P.next := by
  obtain ⟨-, -, records, -, -, hconflicts, -, hrec⟩ := hs.lasts.contests
  cases List.append_cancel_left (hconflicts.symm.trans hc)
  rcases hrec with hrec | ⟨r', hrec, hright, -⟩
  · cases hrec
  · cases hrec
    exact hright

theorem Draft.Valid.not_loose (hv : P.Valid) : P.next ∉ P.loose.map Outline.handle := by
  intro hm
  exact Nat.lt_irrefl _ (hv.fresh _ (List.mem_append_right _ (Outline.map_handle_subset _ hm)))

theorem Step.enters (hv : P.Valid) (hs : Step o P e Q) (hc : Q.conflicts = P.conflicts ++ [r])
    (hl : r.right ∈ Q.loose.map Outline.handle) : ∃ scope n, e = .enter scope n := by
  rw [hs.right_eq hc] at hl
  cases hs with
  | newScope s n | knownScope s n | keptHeader s n | contestedHeader s n | repeatedHeader s n =>
      exact ⟨s, n, rfl⟩
  | left | newLeaf | unitedLeaf | keptLeaf | joinedLeaf | opposedLeaf | opposedHeaders | remarked =>
      exact absurd hl hv.not_loose

theorem Step.loosens {s : State} {scope : Scope} {n : Notes} (hd : s.Depicts P) (hv : P.Valid)
    (hs : Step o P (.enter scope n) Q) (hc : Q.conflicts = P.conflicts ++ [r]) :
    (∃ k labels right, s.forest.parent r.left = .ok (some k) ∧
      s.forest.kind k = .ok (.conflict .headers labels r.left right)) ↔
    r.right ∈ Q.loose.map Outline.handle := by
  have hright := hs.right_eq hc
  cases hs with
  | newScope | knownScope | keptHeader => simp at hc
  | contestedHeader _ _ path q c nq before after h t m cs hu hp hne hk =>
      cases List.append_cancel_left hc
      obtain ⟨hq, hcs⟩ := (Outline.holds_node ..).mp (hd.part hv.standing hp).1
      have hh := ((Outline.holds_node ..).mp (hcs (.node h (.scope t) m cs) (by simp))).1
      refine iff_of_false ?_ hv.not_loose
      rintro ⟨k, labels, right, hpar, hkind⟩
      rw [Forest.parent_of_look hh] at hpar
      cases hpar
      rw [Forest.kind_of_look hq] at hkind
      cases hkind
  | repeatedHeader _ _ path q old nq r' h t m cs hu hp hne hk =>
      cases List.append_cancel_left hc
      obtain ⟨hq, hleft, -⟩ := (Outline.holds_conflict ..).mp (hd.part hv.standing hp).1
      have hh := ((Outline.holds_node ..).mp hleft).1
      refine iff_of_true ⟨q, old, r'.handle, ?_, ?_⟩ (by simp)
      · rw [Forest.parent_of_look hh]
      · rw [Forest.kind_of_look hq]
        rfl

variable {trees : List Forest} {os : List Outline} {out : Output} {O : Outline}

theorem Runs.loose (h : Runs o P es Q) (hv : P.Valid) {x : Handle}
    (hx : x ∈ P.loose.map Outline.handle) : x ∈ Q.loose.map Outline.handle := by
  refine h.invariant (I := fun P => x ∈ P.loose.map Outline.handle) hv ?_ hx
  intro P Q e _ hs hx
  obtain ⟨-, kept, -, -, hloose, -⟩ := hs.lasts.contests
  rw [hloose, List.map_append]
  exact List.mem_append_left _ hx

theorem Runs.rivals (h : Runs o P es Q) (hv : P.Valid) {x : Outline} (hx : x ∈ P.outline.rivals) :
    x ∈ Q.outline.rivals := by
  refine h.invariant (I := fun P => x ∈ P.outline.rivals) hv ?_ hx
  intro P Q e _ hs hx
  obtain ⟨new, -, -, hrivals, -⟩ := hs.lasts.contests
  exact hrivals.mem_iff.mpr (List.mem_append_left _ hx)

theorem Draft.Accounts.disjoint (ha : P.Accounts) :
    (P.outline.rivals.map Outline.handle).Disjoint (P.loose.map Outline.handle) := by
  have hd := ha.rights.nodup_iff.mpr ha.nodup
  rw [List.map_append, List.nodup_append'] at hd
  exact hd.2.2

/-- The loose headers of a run are those of its repeated records. -/
theorem Outcome.repeated_iff (h : Outcome o trees os Q out O) (ha : Q.Accounts)
    (hr : r ∈ Q.conflicts) :
    Repeated o (os.flatMap Outline.events) r ↔ r.right ∈ Q.loose.map Outline.handle := by
  constructor
  · rintro ⟨before, scope, n, after, s, s', hev, hrun, hstep, hconflicts, hside⟩
    rw [← map_snd_scripts] at hev
    obtain ⟨es₁, rest, hes, hes₁, hrest⟩ := List.map_eq_append_iff.mp hev
    obtain ⟨x, es₂, rfl, hx, hes₂⟩ := List.map_eq_cons_iff.mp hrest
    have hruns := h.runs
    rw [hes] at hruns
    obtain ⟨R, hb, hafter⟩ := hruns.split
    cases hafter with
    | cons hs hafter =>
        subst hx
        have hvR := hb.valid Draft.valid_empty
        obtain ⟨s₁, he₁, hd₁⟩ := hb.depicts State.Depicts.empty Draft.valid_empty
        rw [hes₁, hrun] at he₁
        cases he₁
        obtain ⟨s₂, he₂, hd₂⟩ := hs.depicts hd₁ hvR.standing
        rw [hstep] at he₂
        cases he₂
        rw [hd₁.conflicts, hd₂.conflicts] at hconflicts
        exact hafter.loose (hs.valid hvR) ((hs.loosens hd₁ hvR hconflicts).mp hside)
  · intro hl
    rcases h.runs.recorded hr with hr | ⟨before, e, after, R, R', hes, hb, hs, hc, hafter⟩
    · cases hr
    have hvR := hb.valid Draft.valid_empty
    have hloose : r.right ∈ R'.loose.map Outline.handle := by
      obtain ⟨new, kept, records, hrivals, hkept, hrec, hright, -⟩ := hs.lasts.contests
      cases List.append_cancel_left (hrec.symm.trans hc)
      have hmem : r.right ∈ (new ++ kept).map Outline.handle := by simp [hright]
      rw [List.map_append, List.mem_append] at hmem
      rcases hmem with hmem | hmem
      · obtain ⟨x, hx, heq⟩ := List.mem_map.mp hmem
        have hx' := hafter.rivals (hs.valid hvR) (hrivals.mem_iff.mpr (List.mem_append_right _ hx))
        exact absurd hl (ha.disjoint (heq ▸ List.mem_map_of_mem hx'))
      · rw [hkept, List.map_append]
        exact List.mem_append_right _ hmem
    obtain ⟨scope, n, rfl⟩ := hs.enters hvR hc hloose
    obtain ⟨s, he, hd⟩ := hb.depicts State.Depicts.empty Draft.valid_empty
    obtain ⟨s', he', hd'⟩ := hs.depicts hd hvR.standing
    refine ⟨before.map (·.2), scope, n, after.map (·.2), s, s', ?_, he, he', ?_,
      (hs.loosens hd hvR hc).mpr hloose⟩
    · rw [← map_snd_scripts, hes, List.map_append, List.map_cons]
    · rw [hd.conflicts, hd'.conflicts, hc]

/-- Records and conflicts of the output correspond to each other. -/
theorem records_correspond (labels : Labels) (trees : List Forest)
    (hc : ∀ t ∈ trees, t.ConflictFree) : ∃ os out O, readings trees = .ok os ∧
      mergeAll ⟨labels, .both⟩ trees = .ok out ∧ out.forest.outline Forest.root = .ok O ∧
      (out.conflicts.map Conflict.right).Nodup ∧
      (∀ h, h ∈ O.rivals.map Outline.handle ↔ ∃ r ∈ out.conflicts, r.right = h ∧
        ¬ Repeated ⟨labels, .both⟩ (os.flatMap Outline.events) r) ∧
      (∀ r ∈ out.conflicts, Repeated ⟨labels, .both⟩ (os.flatMap Outline.events) r →
        r.right ∉ O.handles ∧ out.forest.parent r.right = .ok none) ∧
      ∀ r ∈ out.conflicts, r.right ∈ O.handles → ∃ k form labels' n L R,
        .conflict k form labels' n L R ∈ O.subtrees ∧ r.left ∈ L.handles ∧
          r.right ∈ (form.rivals R).map Outline.handle := by
  obtain ⟨os, Q, out, O, h⟩ := @exists_outcome ⟨labels, .both⟩ trees (by simp) hc
  have ha : Q.Accounts := h.runs.invariant (I := Draft.Accounts) Draft.valid_empty
    (fun _ hs => hs.accounts) Draft.accounts_empty
  have hattested := h.runs.invariant (I := fun P => ∀ r ∈ P.conflicts,
    r.right ∈ P.loose.map Outline.handle ∨ P.outline.Opposes r.left r.right) Draft.valid_empty
    (fun hv hs => hs.attested hv) (by simp [Draft.empty])
  have hloose {x : Handle} (hx : x ∈ Q.loose.map Outline.handle) : x ∉ O.handles := by
    intro ho
    have hd := (List.nodup_append'.mp h.valid.nodup).2.2
    exact hd (h.coalesces.handles ho) (Outline.map_handle_subset _ hx)
  have hrivals : ∀ x, x ∈ O.rivals.map Outline.handle ↔ x ∈ Q.outline.rivals.map Outline.handle :=
    fun x => (h.coalesces.rivals.map _).mem_iff
  refine ⟨os, out, O, h.readings, h.merged, h.outline, ?_, ?_, ?_, ?_⟩
  · rw [h.conflicts]
    exact ha.nodup
  · intro x
    have hmem := ha.rights.mem_iff (a := x)
    rw [List.map_append, List.mem_append, List.mem_map (f := Conflict.right)] at hmem
    rw [hrivals, h.conflicts]
    constructor
    · intro hx
      obtain ⟨r, hr, rfl⟩ := hmem.mp (Or.inl hx)
      refine ⟨r, hr, rfl, ?_⟩
      rw [h.repeated_iff ha hr]
      exact ha.disjoint hx
    · rintro ⟨r, hr, rfl, hrep⟩
      rw [h.repeated_iff ha hr] at hrep
      exact (hmem.mpr ⟨r, hr, rfl⟩).resolve_right hrep
  · intro r hr hrep
    rw [h.conflicts] at hr
    rw [h.repeated_iff ha hr] at hrep
    refine ⟨hloose hrep, ?_⟩
    obtain ⟨x, hx, heq⟩ := List.mem_map.mp hrep
    obtain ⟨n, hn, hpar⟩ := (h.loose x hx).look_handle
    rw [← heq, Forest.parent_of_look hn, hpar]
  · intro r hr ho
    rw [h.conflicts] at hr
    obtain ⟨k, form, labels', n, L, R, hm, ha, hb⟩ := h.coalesces.opposes
      ((hattested r hr).resolve_left fun hl => hloose hl ho)
    exact ⟨k, form, labels', n, L, R, hm, L.declared_subset ha, hb⟩

theorem records_correspond_constants : ∃ out O, mergeAll {} [.ofConstant "A" "1", .ofConstant "A" "2"] = .ok out ∧
    out.forest.outline Forest.root = .ok O ∧ (out.conflicts.map Conflict.right).Nodup ∧
    ∀ h ∈ O.rivals.map Outline.handle, ∃ r ∈ out.conflicts, r.right = h := by
  obtain ⟨os, out, O, -, hm, ho, hd, hr, -⟩ := records_correspond ⟨"left", "right"⟩
    [.ofConstant "A" "1", .ofConstant "A" "2"] (by simp [Forest.conflictFree_ofConstant])
  refine ⟨out, O, hm, ho, hd, ?_⟩
  intro h hh
  obtain ⟨r, hm, he, -⟩ := (hr h).mp hh
  exact ⟨r, hm, he⟩

end Reconcile.Merge
