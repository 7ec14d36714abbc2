import Reconcile.Proofs.Merge.Detection
import Reconcile.Proofs.Merge.Outcome
import Reconcile.Proofs.Merge.Succession

namespace Reconcile

namespace Outline

instance (o : Outline) (k h : Handle) : Decidable (o.Covers k h) :=
  inferInstanceAs (Decidable (∃ x ∈ o.subtrees, x.handle = k ∧ h ∈ x.handles))

/-- The second tree can be read into the first one as it is meant: its headers mean the same where the
scopes are that they are for, and no leaf has a key of what is around the scopes that it is in. -/
@[mk_iff]
structure Receives (TA TB : Outline) : Prop where
  header : ∀ a ∈ TA.census "", ∀ b ∈ TB.census "", a.content.scope?.isSome = true →
    b.content.scope?.isSome = true → b.Shares a →
      b.content.qualify a.outer = b.content.qualify b.outer
  leaf : ∀ b ∈ TB.census "", b.content.scope? = none → ∀ e ∈ TB.census "",
    e.content.scope?.isSome = true → TB.Covers e.handle b.handle → ∀ a ∈ TA.census "",
      a.content.scope?.isSome = true → e.Shares a → ∀ a' ∈ TA.census "",
        TA.Covers a'.handle a.handle → ¬ b.Shares a'

instance (TA TB : Outline) : Decidable (TA.Receives TB) :=
  decidable_of_iff' _ (receives_iff TA TB)

end Outline

def Forest.Receives (A B : Forest) : Prop :=
  ∃ TA TB, A.outline root = .ok TA ∧ B.outline root = .ok TB ∧ TA.Receives TB

instance (A B : Forest) : Decidable (A.Receives B) :=
  decidable_of_iff (∃ TA ∈ (A.outline Forest.root).toOption,
    ∃ TB ∈ (B.outline Forest.root).toOption, TA.Receives TB)
    (by simp only [Forest.mem_toOption, Forest.Receives]; grind)

namespace Merge

/-- The declaration `a` of another tree is one that `b` is put to: it has a key of `b`, or it is a scope
and has the key of a scope around `b`. -/
def Refers (TB : Outline) (b a : Entry) : Prop :=
  b.Shares a ∨ a.content.scope?.isSome = true ∧ ∃ e ∈ TB.census "",
    e.content.scope?.isSome = true ∧ TB.Covers e.handle b.handle ∧ e.Shares a

/-- The declaration `b'` has a key of something that is above a declaration that `b` is put to. -/
def Displaces (TA TB : Outline) (b' b : Entry) : Prop :=
  ∃ a ∈ TA.census "", Refers TB b a ∧
    ∃ a' ∈ TA.census "", TA.Covers a'.handle a.handle ∧ b'.Shares a'

instance (TB : Outline) (b a : Entry) : Decidable (Refers TB b a) :=
  inferInstanceAs (Decidable (_ ∨ _ ∧ ∃ e ∈ TB.census "", _ ∧ _ ∧ _))

instance (TA TB : Outline) (b' b : Entry) : Decidable (Displaces TA TB b' b) :=
  inferInstanceAs (Decidable (∃ a ∈ TA.census "", _ ∧ ∃ a' ∈ TA.census "", _ ∧ _))

variable {o : Options} {P Q R : Draft} {T : Outline} {v w : Visit} {vs : List Visit} {l : Leaf}
  {n : Notes}

def Visit.Reaches (T : Outline) (v : Visit) (a : Entry) : Prop :=
  T.Encloses a v.around ∨
    ∃ a' ∈ T.census "", T.Covers a.handle a'.handle ∧ ∃ b ∈ v.arrival?, b.Shares a'

/-- A leaf with all that it says, where the visit for it can have put it. -/
def Draft.Keeps (P : Draft) (T : Outline) (v : Visit) (l : Leaf) (n : Notes) : Prop :=
  ∃ d ∈ P.census, (∃ l', d.content = .leaf l' ∧ l.Within l') ∧ n.comments ⊆ d.notes.comments ∧
    ∀ a ∈ T.census "", P.outline.Covers (copyOf T a.handle) d.handle → v.Reaches T a

theorem Turn.keeps_declared (ht : Turn P v.event Q)
    (hf : P.Follows T v.around (entries (v :: vs))) (he : v.event = .declare l n) :
    Q.Keeps T v l n := by
  have hb := Visit.arrival?_declare he
  rw [he] at ht
  obtain ⟨d, hd, l', hl', hw, hn, place, hplace, hcov⟩ := ht.declares hf.standing
  refine ⟨d, hd, ⟨l', hl', hw⟩, hn, fun a ha hc => ?_⟩
  have hc := hcov _ (hf.next a ha) hc
  rcases hplace with rfl | ⟨key, hu⟩
  · exact Or.inl (hf.current ha hc)
  · rw [hf.name_eq] at hu
    obtain ⟨a', ha', rfl, hshares⟩ := hf.exists_previous (mem_entries hb vs) hu
    exact Or.inr ⟨a', ha', hf.covers a ha a' ha' hc, _, hb, hshares⟩

/-- No leaf that comes later has a key of anything around the place of a visit. -/
def Visit.Spared (T : Outline) (v : Visit) (bs : List Entry) : Prop :=
  ∀ b ∈ bs, ∀ l, b.content = .leaf l → ∀ a ∈ T.census "", v.Reaches T a → ¬ b.Shares a

theorem Turn.keeps_spared (ht : Turn P w.event Q)
    (hf : P.Follows T w.around (entries (w :: vs))) (hk : P.Keeps T v l n)
    (hs : v.Spared T (entries (w :: vs))) : Q.Keeps T v l n := by
  obtain ⟨d, hd, ⟨l', hl', hw⟩, hn, hcov⟩ := hk
  rcases ht.keeps hd hl' with hd' | ⟨k, m, key, h, he, hu, hc⟩
  · exact ⟨d, hd', ⟨l', hl', hw⟩, hn, fun a ha hc =>
      hcov a ha (ht.covers (hf.standing.lt_next hd) hc)⟩
  -- What would go with the leaf is around it and of the first tree, but such leaves do not come.
  · have hb := Visit.arrival?_declare he
    rw [hf.name_eq] at hu
    obtain ⟨a, ha, rfl, hshares⟩ := hf.exists_previous (mem_entries hb vs) hu
    exact absurd hshares (hs _ (mem_entries hb vs) k rfl a ha (hcov a ha hc))

/-- One turn for each visit, with the declarations of the first tree known all the time. -/
inductive Journey (T : Outline) : Draft → List Visit → Draft → Prop
  | nil (P : Draft) : Journey T P [] P
  | cons {P Q R : Draft} {v : Visit} {vs : List Visit}
      (hf : P.Follows T v.around (entries (v :: vs))) (ht : Turn P v.event Q)
      (hj : Journey T Q vs R) : Journey T P (v :: vs) R

namespace Journey

theorem keeps_spared (hj : Journey T P vs R) (hk : P.Keeps T v l n)
    (hs : v.Spared T (entries vs)) : R.Keeps T v l n := by
  induction hj with
  | nil => exact hk
  | @cons P Q R w vs hf ht _ ih =>
      exact ih (ht.keeps_spared hf hk hs) fun b hb => hs b (entries_subset w vs hb)

theorem keeps_declared {before : List Visit} (hj : Journey T P (before ++ v :: vs) R)
    (he : v.event = .declare l n) (hs : v.Spared T (entries vs)) : R.Keeps T v l n := by
  induction before generalizing P with
  | nil =>
      cases hj with
      | cons hf ht hj => exact hj.keeps_spared (ht.keeps_declared hf he) hs
  | cons w before ih =>
      cases hj with
      | cons _ _ hj => exact ih hj

end Journey

/-- Visits that fit are made one after the other, and the merge does to its state what is done to the
draft. -/
theorem exists_journey (hk : o.keep = .right) {s : State} {around around' : List String}
    (hd : s.Depicts P) (hf : P.Follows T around (entries vs)) (hc : Chained around vs around')
    (hfits : ∀ v ∈ vs, v.Fits T) (hap : (entries vs).Pairwise Entry.Apart) :
    ∃ s' R, s.run o (vs.map Visit.event) = .ok s' ∧ s'.Depicts R ∧ Journey T P vs R ∧
      R.Follows T around' [] := by
  induction hc generalizing s P with
  | nil around => exact ⟨s, P, rfl, hd, .nil P, hf⟩
  | @cons v vs around' _ ih =>
      have hv := hfits v List.mem_cons_self
      obtain ⟨s₁, Q, hs₁, hd₁, ht⟩ := (hf.ready hv).exists_turn hk hf.standing hf.free hv.carry hd
      obtain ⟨s', R, hs', hd', hj, hR⟩ := ih hd₁ (ht.follows hf hap)
        (fun w hw => hfits w (List.mem_cons_of_mem _ hw))
        (hap.sublist ((List.sublist_cons_self v vs).filterMap _))
      refine ⟨s', R, ?_, hd', .cons hf ht hj, hR⟩
      rw [State.run] at hs' ⊢
      rw [List.map_cons, List.foldlM_cons, hs₁]
      exact hs'

section

variable {A B : Forest} {TA TB : Outline} {a b : Entry}

theorem mem_census_of_visit (hB : B.Shows TB) (hcB : TB.conflictFree = true) (hv : v ∈ TB.visits [])
    (hb : b ∈ v.arrival?) : b ∈ TB.census "" := by
  have hall : entries (TB.visits []) = TB.census "" := Outline.entries_visits hB.sound hcB []
  rw [← hall]
  exact List.mem_filterMap.mpr ⟨v, hv, hb⟩

theorem exists_scope_above (hcB : TB.conflictFree = true) (hv : v ∈ TB.visits []) (hb : b ∈ v.arrival?)
    {name : String} (hn : name ∈ v.around) (hk : name ∈ a.keys) : ∃ e ∈ TB.census "",
      e.content.scope?.isSome = true ∧ TB.Covers e.handle b.handle ∧ e.Shares a := by
  obtain ⟨d, -, rfl⟩ := Option.map_eq_some_iff.mp hb
  rcases Outline.exists_scope_of_around hcB hv hn with hn | ⟨e, he, ⟨s, hs, rfl⟩, hcov⟩
  · cases hn
  · refine ⟨e, he, by rw [hs]; rfl, hcov, _, ?_, hk⟩
    simp [Entry.keys, hs, Content.keys]

theorem receives_fits (hr : TA.Receives TB) (hB : B.Shows TB) (hcB : TB.conflictFree = true)
    (hv : v ∈ TB.visits []) : v.Fits TA where
  carry := Outline.isCarry_of_mem_visits hcB hv
  header s n he a ha hscope hk := by
    have hb := Visit.arrival?_enter he
    have hshares : (⟨v.handle, v.outer, .scope s, n⟩ : Entry).Shares a :=
      ⟨_, List.mem_singleton_self _, hk⟩
    exact hr.header a ha _ (mem_census_of_visit hB hcB hv hb) hscope rfl hshares
  leaf b hb l hl a ha hshares henc := by
    obtain ⟨a', ha', hscope, hcov, name, hn, hk⟩ := henc
    obtain ⟨e, he, hes, hecov, hshares'⟩ := exists_scope_above hcB hv hb hn hk
    refine hr.leaf b (mem_census_of_visit hB hcB hv hb) ?_ e he hes hecov a' ha' hscope hshares' a ha
      hcov hshares
    rw [hl]
    rfl

theorem Visit.Spared.of_not_displaces {post : List Entry} (hcB : TB.conflictFree = true)
    (hv : v ∈ TB.visits []) (hb : b ∈ v.arrival?)
    (h : ∀ b' ∈ post, b'.content.scope? = none → ¬ Displaces TA TB b' b) : v.Spared TA post := by
  intro b' hb' l hl a ha hreach hshares
  suffices hrefers : ∃ a' ∈ TA.census "", Refers TB b a' ∧ TA.Covers a.handle a'.handle by
    obtain ⟨a', ha', hrefers, hcov⟩ := hrefers
    exact h b' hb' (by rw [hl]; rfl) ⟨a', ha', hrefers, a, ha, hcov, hshares⟩
  rcases hreach with ⟨a', ha', hscope, hcov, name, hn, hk⟩ | ⟨a', ha', hcov, b₀, hb₀, hshares'⟩
  · exact ⟨a', ha', Or.inr ⟨hscope, exists_scope_above hcB hv hb hn hk⟩, hcov⟩
  · cases Option.mem_unique hb hb₀
    exact ⟨a', ha', Or.inl hshares', hcov⟩

theorem exists_precedence (labels : Labels) (hA : A.Shows TA) (hB : B.Shows TB)
    (hcA : TA.conflictFree = true) (hcB : TB.conflictFree = true) (hdA : A.DuplicateFree)
    (hdB : B.DuplicateFree) (hr : TA.Receives TB) :
    ∃ out P Q, mergeAll ⟨labels, .right⟩ [A, B] = .ok out ∧ Journey TA P (TB.visits []) Q ∧
      out.forest.outline Forest.root = .ok Q.outline := by
  obtain ⟨P, hP⟩ := exists_first_copy ⟨labels, .right⟩ hA.sound hcA hA.nodup (hA.pairwise_apart hdA)
  have hvisits : entries (TB.visits []) = TB.census "" := Outline.entries_visits hB.sound hcB []
  obtain ⟨s₁, hs₁, hd₁⟩ := hP.runs.depicts State.Depicts.empty Draft.valid_empty
  obtain ⟨s₂, Q, hs₂, hd₂, hj, hQ⟩ := exists_journey (o := ⟨labels, .right⟩) rfl hd₁
    (hP.follows hcA hA.nodup _) (Outline.chained_visits [] TB) (fun v hv => receives_fits hr hB hcB hv)
    (hvisits ▸ hB.pairwise_apart hdB)
  have hreadings : readings [A, B] = .ok [TA, TB] := by
    simp [readings, hA.outline, hB.outline, bind, Except.bind, pure, Except.pure]
  have hfold : [A, B].foldlM (State.merge ⟨labels, .right⟩) {} = .ok s₂ := by
    have hname : Draft.empty.name = "" := rfl
    rw [hname, map_snd_scripts] at hs₁
    rw [Outline.map_event_visits] at hs₂
    have happ : [TA, TB].flatMap Outline.events = [TA].flatMap Outline.events ++ TB.events := by simp
    rw [foldlM_merge hreadings, happ, State.run, List.foldlM_append]
    rw [State.run] at hs₁ hs₂
    rw [hs₁]
    exact hs₂
  obtain ⟨out, O, hout, -, ho, hn, hroot, -, hcoal⟩ :=
    hd₂.exists_output hQ.standing (Outline.tidy_of_conflictFree hQ.free) hfold
  cases hcoal.plain hQ.free
  refine ⟨out, P, Q, hout, hj, ?_⟩
  rw [← hroot.1]
  exact Forest.outline_of_holds ho hn

end

/-- Every leaf of the second tree is part of the output, unless a later one displaces it. -/
theorem later_leaves_win (labels : Labels) (A B : Forest) (hwA : A.WellFormed) (hwB : B.WellFormed)
    (hcA : A.ConflictFree) (hcB : B.ConflictFree) (hdA : A.DuplicateFree) (hdB : B.DuplicateFree)
    (hr : A.Receives B) : ∃ TA TB out O, A.outline Forest.root = .ok TA ∧
      B.outline Forest.root = .ok TB ∧ mergeAll ⟨labels, .right⟩ [A, B] = .ok out ∧
      out.forest.outline Forest.root = .ok O ∧
      ∀ pre b post, TB.census "" = pre ++ b :: post → ∀ l, b.content = .leaf l →
        (∀ b' ∈ post, b'.content.scope? = none → ¬ Displaces TA TB b' b) →
        ∃ k l' n cs, .node k (.leaf l') n cs ∈ O.subtrees ∧ l.Within l' ∧
          b.notes.comments ⊆ n.comments := by
  obtain ⟨TA, hA⟩ := hwA.exists_shows
  obtain ⟨TB, hB⟩ := hwB.exists_shows
  obtain ⟨TA', TB', hTA, hTB, hr⟩ := hr
  cases hA.outline.symm.trans hTA
  cases hB.outline.symm.trans hTB
  have hfree := hB.conflictFree hcB
  obtain ⟨out, P, Q, hout, hj, hO⟩ := exists_precedence labels hA hB (hA.conflictFree hcA) hfree hdA hdB hr
  refine ⟨TA, TB, out, Q.outline, hTA, hTB, hout, hO, fun pre b post hsplit l hl hspared => ?_⟩
  have hvisits : entries (TB.visits []) = pre ++ b :: post :=
    (Outline.entries_visits hB.sound hfree []).trans hsplit
  obtain ⟨before, v, after, hv, he, rfl⟩ := exists_visit hvisits
  have hm : v ∈ TB.visits [] := by simp [hv]
  rw [hv] at hj
  obtain ⟨d, hd, ⟨l', hl', hw⟩, hn, -⟩ :=
    hj.keeps_declared (event_of_leaf he hl) (.of_not_displaces hfree hm he hspared)
  obtain ⟨path, cs, hp, -, -⟩ := Outline.exists_path_of_mem_census hd
  refine ⟨d.handle, l', d.notes, cs, ?_, hw, hn⟩
  rw [hp, ← hl']
  exact Outline.subtrees_plug path (Outline.mem_subtrees_self _)

theorem later_leaves_win_sample : ∃ TB out O, sampleClass.outline Forest.root = .ok TB ∧
    mergeAll ⟨⟨"left", "right"⟩, .right⟩ [.sampleModule, sampleClass] = .ok out ∧
      out.forest.outline Forest.root = .ok O ∧ ∀ b ∈ TB.census "", ∀ l, b.content = .leaf l →
        ∃ k l' n cs, .node k (.leaf l') n cs ∈ O.subtrees ∧ l.Within l' ∧
          b.notes.comments ⊆ n.comments := by
  obtain ⟨TA, TB, out, O, hTA, hTB, hout, hO, h⟩ :=
    later_leaves_win ⟨"left", "right"⟩ .sampleModule sampleClass (by decide) (by decide) (by decide)
      (by decide) (by decide) (by decide) (by decide)
  have hspared : (TB.census "").Pairwise
      fun b b' => b'.content.scope? = none → ¬ Displaces TA TB b' b := by
    obtain rfl : _ = TA := Except.ok.inj (Eq.trans rfl hTA)
    obtain rfl : _ = TB := Except.ok.inj (Eq.trans rfl hTB)
    decide
  refine ⟨TB, out, O, hTB, hout, hO, fun b hb l hl => ?_⟩
  obtain ⟨pre, post, hsplit⟩ := List.append_of_mem hb
  refine h pre b post hsplit l hl ?_
  rw [hsplit, List.pairwise_append, List.pairwise_cons] at hspared
  exact hspared.2.1.1

/-- A leaf of the second tree is lost in a merge that prefers it. -/
def Loses (A B : Forest) (l : Leaf) : Prop :=
  A.WellFormed ∧ A.ConflictFree ∧ A.DuplicateFree ∧ B.WellFormed ∧ B.ConflictFree ∧ B.DuplicateFree ∧
    ∃ TB out O, B.outline Forest.root = .ok TB ∧
      mergeAll ⟨⟨"left", "right"⟩, .right⟩ [A, B] = .ok out ∧
      out.forest.outline Forest.root = .ok O ∧ l ∈ TB.leaves.map (·.1) ∧
      ∀ l' ∈ O.leaves.map (·.1), ¬ l.Within l'

def nestedModules : Forest :=
  .ofItems [.scope (.moduleNamed "A") {} [.scope (.moduleNamed "B") {} []]]

def nestedConstants : Forest :=
  .ofItems [.scope (.moduleNamed "::A::B") {} [.leaf (.constant "x" "1") {}],
    .leaf (.constant "A" "1") {}]

/-- A leaf takes the place of a scope, and what was put into the scope before goes with it. The other
losses come from what is still known of declarations that have been replaced. -/
theorem leaves_can_be_lost :
    nestedModules.Receives nestedConstants ∧
      Loses nestedModules nestedConstants (.constant "x" "1") ∧
    -- The method is met under the key for writing, which was that of the accessor.
    Loses (.ofItems [.leaf (.attribute { kind := .accessor, names := ["x"] }) {}])
      (.ofItems [.leaf (.attribute { kind := .reader, names := ["x"] }) {},
        .leaf (.method { name := "x=" }) {}]) (.attribute { kind := .reader, names := ["x"] }) ∧
    -- The header `B` gives another name to the module `::B`, which is in `A`.
    Loses (.ofItems [.scope (.moduleNamed "A") {} [.scope (.moduleNamed "::B") {} []]])
      (.ofItems [.scope (.moduleNamed "B") {} [.leaf (.constant "x" "1") {}],
        .scope (.moduleNamed "A") {} [.scope (.moduleNamed "B") {} [.leaf (.constant "x" "2") {}]]])
      (.constant "x" "1") ∧
    -- The module `::A` is dropped while it is being filled.
    Loses (.ofItems [.scope (.moduleNamed "::A::B") {} [.scope (.moduleNamed "::A") {} []]])
      (.ofItems [.scope (.moduleNamed "::A") {}
        [.leaf (.constant "B" "1") {}, .leaf (.constant "x" "2") {}]]) (.constant "x" "2") := by
  refine ⟨by decide, ?_, ?_, ?_, ?_⟩
  all_goals
    refine ⟨by decide, by decide, by decide, by decide, by decide, by decide, _, _, _, rfl, rfl, rfl,
      by decide, fun l' hl' hw => ?_⟩
    cases List.mem_singleton.mp hl'
  · exact absurd hw.eq_of_constant (by decide)
  · cases hw
  · exact absurd hw.eq_of_constant (by decide)
  · exact absurd hw.eq_of_constant (by decide)

end Merge

end Reconcile
