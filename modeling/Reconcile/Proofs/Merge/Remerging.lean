import Reconcile.Proofs.Merge.Absorption

namespace Reconcile

def Content.signatures : Content → List Signature
  | .leaf l => l.signatures
  | _ => []

namespace Entry

variable {e e' e'' : Entry}

/-- The second entry has the signatures of the first one and maybe others, but no new repetitions. -/
structure Accrues (e e' : Entry) : Prop where
  subset : e.content.signatures ⊆ e'.content.signatures
  nodup : e.content.signatures.Nodup → e'.content.signatures.Nodup

theorem Accrues.refl (e : Entry) : e.Accrues e := ⟨List.Subset.refl _, fun h => h⟩

theorem Accrues.trans (h : e.Accrues e') (h' : e'.Accrues e'') : e.Accrues e'' :=
  ⟨List.Subset.trans h.subset h'.subset, fun hn => h'.nodup (h.nodup hn)⟩

theorem Absorbs.accrues (h : e.Absorbs e') : e.Accrues e' := by
  rcases h.2 with hsame | ⟨c, hcomp, habsorb⟩
  · exact ⟨by rw [hsame]; exact List.Subset.refl _, fun hn => by rwa [hsame]⟩
  · cases hc : e.content with
    | leaf k =>
        rw [hc] at hcomp habsorb
        cases c with
        | leaf m =>
            have hunion : e'.content.signatures = union k.signatures m.signatures := by
              rw [habsorb]
              exact Leaf.signatures_absorb hcomp
            refine ⟨?_, fun hn => ?_⟩
            · rw [hunion, hc]
              exact subset_union _ _
            · rw [hc] at hn
              rw [hunion]
              exact nodup_union hn _
        | tree | scope | visibilityGroup | group => cases hcomp
    | tree | scope | visibilityGroup | group =>
        have hsame : e'.content = e.content := by rw [habsorb, hc]; rfl
        exact ⟨by rw [hsame]; exact List.Subset.refl _, fun hn => by rwa [hsame]⟩

end Entry

namespace Merge

/-- No declaration has lost repeated signatures to a partner that had none. -/
def Lossless (as bs : List Entry) : Prop :=
  ∀ b ∈ bs, ∀ p ∈ b.partner? as, p.2.content.signatures = [] → b.content.signatures.Nodup

variable {o : Options} {P Q R : Draft} {e : Event} {es before after : List (String × Event)}
  {name : String} {l : Leaf} {n : Notes} {d : Entry}

/-- A leaf does not agree with what it would be compared with. -/
def Draft.Disputes (P : Draft) (name : String) (l : Leaf) : Prop :=
  ∃ d, P.Faces name l d ∧ d.content.compatible (.leaf l) = false

theorem Draft.Faces.eq {d' : Entry} (hv : P.Valid) (hf : P.Faces name l d)
    (hf' : P.Faces name l d') : d = d' := by
  obtain ⟨hd, key, hu⟩ := hf
  obtain ⟨hd', key', hu'⟩ := hf'
  rw [hu, Option.some.injEq, Prod.mk.injEq] at hu'
  exact Outline.census_unique hv.nodup_outline hd hd' hu'.2

namespace Step

theorem disputes (hk : o.keep = .both) (hv : P.Valid) (hs : Step o P e Q) (h : P.Disputes name l)
    (hsp : Draft.Spares o name l (P.name, e)) : Q.Disputes name l := by
  obtain ⟨d, hf, hl⟩ := h
  obtain ⟨d', hf', ha | ⟨hleft, -⟩⟩ := hs.faces hv hf hsp
  · exact ⟨d', hf', ha.incompatible hl⟩
  · cases hk.symm.trans hleft

theorem records_of_disputes (hk : o.keep = .both) (hv : P.Valid) (hs : Step o P (.declare l n) Q)
    (h : P.Disputes P.name l) : Q.conflicts ≠ P.conflicts := by
  obtain ⟨d, ⟨hd, key, hu⟩, hl⟩ := h
  have hmeets : P.meets? (.leaf l) = some (key, d.handle) := hu
  rcases hs.met hk hv rfl with ⟨hnone, -⟩ | ⟨key', d', hd', hmeets', hcase⟩
  · cases hnone.symm.trans hmeets
  · rw [hmeets, Option.some.injEq, Prod.mk.injEq] at hmeets'
    cases Outline.census_unique hv.nodup_outline hd hd' hmeets'.2
    rcases hcase with ⟨hcomp, -⟩ | ⟨-, hc, -⟩
    · cases hl.symm.trans hcomp
    · rw [hc]
      simp [Draft.record]

theorem disputes_of_repetition (hk : o.keep = .both) (hv : P.Valid)
    (hs : Step o P (.declare l n) Q) (hc : Q.conflicts = P.conflicts) (hf : P.Faces P.name l d)
    (hd : d.content.signatures.Nodup) (hl : ¬ l.signatures.Nodup) : Q.Disputes P.name l := by
  cases hs with
  | newLeaf _ _ path c m cs hu hp hcont hn =>
      obtain ⟨-, key, hu'⟩ := hf
      cases hu.symm.trans hu'
  | keptLeaf _ _ _ _ _ _ _ _ _ _ _ hk' => cases hk.symm.trans hk'
  | joinedLeaf | opposedLeaf | opposedHeaders => exact absurd hc (by simp [Draft.record])
  | unitedLeaf _ _ path key h l' m cs hu hp hcomp =>
      cases hf.eq hv ⟨Draft.mem_census_of_plug path hp rfl, key, hu⟩
      refine ⟨⟨h, pathName "" path, .leaf (l'.absorb l), m.addComments n.comments⟩,
        ⟨Outline.mem_census_plug "" path rfl, key, hu⟩, ?_⟩
      have hagree := hcomp
      rw [Leaf.compatible_eq, Bool.and_eq_true, agreeingSignatures_iff] at hagree
      have hnil : l'.signatures = [] := by
        rcases hagree.2 with hnil | hnil | heq
        · exact hnil
        · rw [hnil] at hl
          exact absurd List.nodup_nil hl
        · rw [← heq] at hl
          exact absurd hd hl
      rw [Bool.eq_false_iff]
      intro hagain
      exact hl ((Leaf.absorb_compatible_iff hcomp).mp hagain hnil)

end Step

namespace Runs

theorem disputes (hk : o.keep = .both) (hr : Runs o P es Q) (hv : P.Valid) (h : P.Disputes name l)
    (hsp : ∀ y ∈ es, Draft.Spares o name l y) : Q.Disputes name l := by
  induction hr with
  | nil => exact h
  | cons hs hr ih =>
      exact ih (hs.valid hv) (hs.disputes hk hv h (hsp _ List.mem_cons_self))
        fun y hy => hsp y (List.mem_cons_of_mem _ hy)

theorem accrues (hr : Runs o P es Q) (hv : P.Valid) :
    ∀ d ∈ P.census, ∃ d' ∈ Q.census, d'.handle = d.handle ∧ d.Accrues d' := by
  intro d hd
  refine hr.invariant (I := fun R => ∃ d' ∈ R.census, d'.handle = d.handle ∧ d.Accrues d') hv ?_
    ⟨d, hd, rfl, .refl d⟩
  rintro P Q e hv hs ⟨d', hd', hh, ha⟩
  obtain ⟨d'', hd'', ha'⟩ := hs.absorbs hv hd'
  exact ⟨d'', hd'', ha'.1.handle.trans hh, ha.trans ha'.accrues⟩

theorem previous?_eq {keys : List String} (hr : Runs o P es Q)
    (hdis : ∀ y ∈ es, ∀ c m, y.2.declaration? = some (c, m) → (c.keys y.1).Disjoint keys) :
    Q.previous? keys = P.previous? keys := by
  induction hr with
  | nil => rfl
  | @cons P R Q e es hs hr ih =>
      rw [ih fun y hy => hdis y (List.mem_cons_of_mem _ hy), Draft.previous?, Draft.previous?]
      apply findSome?_congr
      intro key hk
      rw [Index.last?, Index.last?, hs.recent_eq fun c m hd hkey =>
        hdis _ List.mem_cons_self c m hd hkey hk]

end Runs

theorem disjoint_of_apart {y : String × Event}
    (ha : (arrivals (before ++ y :: after)).Pairwise Entry.Apart) (hy : y.2 = .declare l n) :
    ∀ z ∈ before ++ after, ∀ c m, z.2.declaration? = some (c, m) →
      (c.keys z.1).Disjoint (l.keys y.1) := by
  have hmem {es : List (String × Event)} {z : String × Event} {c : Content} {m : Notes}
      (hz : z ∈ es) (hd : z.2.declaration? = some (c, m)) : ⟨Forest.root, z.1, c, m⟩ ∈ arrivals es :=
    List.mem_filterMap.mpr ⟨z, hz, by rw [hd]; rfl⟩
  obtain ⟨name, e⟩ := y
  cases hy
  rw [arrivals, List.filterMap_append, ← arrivals, ← arrivals, arrivals_declaration rfl,
    List.pairwise_append, List.pairwise_cons] at ha
  intro z hz c m hd
  rcases List.mem_append.mp hz with hz | hz
  · exact ha.2.2 _ (hmem hz hd) _ List.mem_cons_self
  · exact List.disjoint_symm (ha.2.1.1 _ (hmem hz hd))

section

variable {as : List Entry} {φ : Handle → Handle} {b : Entry} {key : String} {a : Entry}

theorem Runs.faces_partner (hr : Runs o P before R) (hv : P.Valid) (ha : Distinct as φ)
    (hknows : P.Knows as φ [b]) (hc : b.content = .leaf l)
    (hdis : ∀ y ∈ before, ∀ c m, y.2.declaration? = some (c, m) →
      (c.keys y.1).Disjoint (l.keys b.outer))
    (hp : b.partner? as = some (key, a)) : ∃ d, R.Faces b.outer l d ∧ a.Accrues d := by
  have hb := List.mem_singleton_self b
  obtain ⟨hm, hka, hkb⟩ := mem_of_partner? hp
  obtain ⟨e, he, hh, hcontent⟩ := hknows.content b hb key hkb a hm hka
  obtain ⟨d, hd, hdh, haccrues⟩ := hr.accrues hv e he
  refine ⟨d, ⟨hd, key, ?_⟩, ?_⟩
  · rw [hr.previous?_eq hdis, hknows.previous?_eq ha hb hc, hp, Option.map_some, hdh, hh]
  · exact ⟨by rw [← hcontent]; exact haccrues.subset, fun hn => haccrues.nodup (by rwa [hcontent])⟩

theorem Runs.partner_of_faces (hr : Runs o P before R) (hv : P.Valid) (ha : Distinct as φ)
    (hknows : P.Knows as φ [b]) (hc : b.content = .leaf l)
    (hdis : ∀ y ∈ before, ∀ c m, y.2.declaration? = some (c, m) →
      (c.keys y.1).Disjoint (l.keys b.outer))
    (hf : R.Faces b.outer l d) : ∃ p ∈ b.partner? as, p.2.Accrues d := by
  obtain ⟨hd, key, hu⟩ := id hf
  rw [hr.previous?_eq hdis, hknows.previous?_eq ha (List.mem_singleton_self b) hc] at hu
  obtain ⟨⟨key', a⟩, hp, -⟩ := Option.map_eq_some_iff.mp hu
  obtain ⟨d', hf', haccrues⟩ := hr.faces_partner hv ha hknows hc hdis hp
  cases hf.eq (hr.valid hv) hf'
  exact ⟨(key', a), hp, haccrues⟩

end

section

variable {as : List Entry} {φ : Handle → Handle} {T : Outline} {Q' : Draft}

theorem pairwise_arrivals (hs : T.sound = true) (hc : T.conflictFree = true)
    (ha : (T.census "").Pairwise Entry.Apart) :
    (arrivals (T.script "")).Pairwise Entry.Apart := by
  rw [Outline.arrivals_script hs hc, List.pairwise_map]
  exact ha

theorem mem_script_of_census (hs : T.sound = true) (hc : T.conflictFree = true) {b : Entry}
    (hb : b ∈ T.census "") (hl : b.content = .leaf l) :
    (b.outer, .declare l b.notes) ∈ T.script "" := by
  have hm : ({ b with handle := Forest.root } : Entry) ∈ arrivals (T.script "") := by
    rw [Outline.arrivals_script hs hc]
    exact List.mem_map_of_mem hb
  obtain ⟨⟨name, e⟩, hy, he⟩ := List.mem_filterMap.mp hm
  obtain ⟨⟨c, m⟩, hd, heq⟩ := Option.map_eq_some_iff.mp he
  rw [Entry.mk.injEq] at heq
  obtain ⟨-, rfl, rfl, rfl⟩ := heq
  cases e with
  | declare l' m' =>
      simp only [Event.declaration?, Option.some.injEq, Prod.mk.injEq] at hd
      cases hd.1.trans hl
      rwa [← hd.2]
  | enter s m' =>
      simp only [Event.declaration?, Option.some.injEq, Prod.mk.injEq] at hd
      cases hd.1.trans hl
  | leave | remark | carry => cases hd

variable (hs : T.sound = true) (hc : T.conflictFree = true)
  (hapart : (T.census "").Pairwise Entry.Apart) (hv : P.Valid)
  (ha : Distinct as φ) (hknows : ∀ bs, P.Knows as φ bs) (hr : Runs o P (T.script "") Q)
  (hsilent : Q.conflicts = P.conflicts)
include hs hc hapart hv ha hknows hr hsilent

/-- A tree that has been read without a conflict is settled if it has lost no signatures. -/
theorem Runs.settles_of_lossless
    (hkeys : ∀ b ∈ T.census "", ∀ l, b.content = .leaf l → b.keys ≠ [])
    (hl : Lossless as (T.census "")) : ∀ y ∈ T.script "", Q.Settled o y.1 y.2 := by
  rintro ⟨name, e⟩ hy
  have hentry {l : Leaf} {n : Notes} (heq : e = .declare l n) :
      ∃ b ∈ T.census "", b.outer = name ∧ b.content = .leaf l := by
    obtain ⟨b, hb, houter, hcontent, -⟩ :=
      exists_entry_of_script (c := .leaf l) (m := n) hs hc hy (by rw [heq]; rfl)
    exact ⟨b, hb, houter, hcontent⟩
  have hpair := pairwise_arrivals hs hc hapart
  obtain ⟨before, after, hscript⟩ := List.append_of_mem hy
  rw [hscript] at hr hpair
  obtain ⟨R, R', rfl, hbefore, hstep, hafter, hquiet⟩ := hr.exists_at
  have hR := hbefore.valid hv
  refine hafter.keepsSettled (hstep.valid hR) (hstep.settles hR (hquiet hsilent) ?_ ?_)
    fun l n heq z hz c m hd => ?_
  · intro l n heq
    obtain ⟨b, hb, houter, hcontent⟩ := hentry heq
    have hne := hkeys b hb l hcontent
    rwa [Entry.keys, hcontent, houter] at hne
  · intro l n d k heq hf hd
    obtain ⟨b, hb, houter, hcontent⟩ := hentry heq
    refine Or.inr fun hnil => ?_
    obtain ⟨p, hp, haccrues⟩ := hbefore.partner_of_faces hv ha (hknows [b]) hcontent
      (fun z hz => by
        rw [houter]
        exact disjoint_of_apart hpair heq z (List.mem_append_left _ hz))
      (by rwa [houter])
    have hsub := haccrues.subset
    rw [hd, Content.signatures, hnil] at hsub
    have hnodup := hl b hb p hp (List.subset_nil.mp hsub)
    rwa [hcontent] at hnodup
  · exact Or.inl (disjoint_of_apart hpair heq z (List.mem_append_right _ hz) c m hd)

/-- A leaf that has lost signatures is recorded when its tree comes again. -/
theorem Runs.records_of_loss (hk : o.keep = .both) (hr' : Runs o Q (T.script "") Q') {b : Entry}
    (hb : b ∈ T.census "") {p : String × Entry} (hp : p ∈ b.partner? as)
    (hnil : p.2.content.signatures = []) (hrep : ¬ b.content.signatures.Nodup) :
    Q'.conflicts ≠ Q.conflicts := by
  intro hsilent'
  obtain ⟨l, hcontent⟩ : ∃ l, b.content = .leaf l := by
    cases hcontent : b.content with
    | leaf l => exact ⟨l, rfl⟩
    | tree | scope | visibilityGroup | group =>
        rw [hcontent] at hrep
        exact absurd List.nodup_nil hrep
  have hpair := pairwise_arrivals hs hc hapart
  obtain ⟨before, after, hscript⟩ :=
    List.append_of_mem (mem_script_of_census hs hc hb hcontent)
  rw [hscript] at hr hr' hpair
  have hdis := disjoint_of_apart hpair rfl
  have hspares : ∀ z ∈ before ++ after, Draft.Spares o b.outer l z := fun z hz c m hd =>
    Or.inl (hdis z hz c m hd)
  rw [hcontent] at hrep
  -- The first time it starts a dispute, the second time this is recorded.
  have hdispute : Q.Disputes b.outer l := by
    obtain ⟨R, R', hname, hbefore, hstep, hafter, hquiet⟩ := hr.exists_at
    obtain ⟨d, hf, haccrues⟩ := hbefore.faces_partner hv ha (hknows [b]) hcontent
      (fun z hz => hdis z (List.mem_append_left _ hz)) hp
    have hR := hbefore.valid hv
    have hstart : R'.Disputes R.name l := by
      refine hstep.disputes_of_repetition hk hR (hquiet hsilent) (hname ▸ hf) ?_ hrep
      exact haccrues.nodup (by rw [hnil]; exact List.nodup_nil)
    rw [hname] at hstart
    exact hafter.disputes hk (hstep.valid hR) hstart fun z hz =>
      hspares z (List.mem_append_right _ hz)
  obtain ⟨R, R', hname, hbefore, hstep, hafter, hquiet⟩ := hr'.exists_at
  have hQ := hr.valid hv
  have hdispute' := hbefore.disputes hk hQ hdispute fun z hz =>
    hspares z (List.mem_append_left _ hz)
  rw [← hname] at hdispute'
  exact hstep.records_of_disputes hk (hbefore.valid hQ) hdispute' (hquiet hsilent')

end

/-- Two trees without duplicates have been merged without a conflict. The second one comes once more
without a conflict, and then without any effect, exactly if none of its leaves has lost repeated
signatures to a partner without signatures. -/
theorem remerging_silent_iff (labels : Labels) (A B : Forest) (hwA : A.WellFormed)
    (hwB : B.WellFormed) (hcA : A.ConflictFree) (hcB : B.ConflictFree) (hdA : A.DuplicateFree)
    (hdB : B.DuplicateFree) (hi : B.Identified) (out : Output)
    (hout : mergeAll ⟨labels, .both⟩ [A, B] = .ok out) (hsilent : out.conflicts = []) :
    ∃ TA TB out', A.outline Forest.root = .ok TA ∧ B.outline Forest.root = .ok TB ∧
      mergeAll ⟨labels, .both⟩ [A, B, B] = .ok out' ∧
      (out'.conflicts = [] ↔ Lossless (TA.census "") (TB.census "")) ∧
      (out'.conflicts = [] → out'.forest = out.forest) := by
  obtain ⟨TA, hA⟩ := hwA.exists_shows
  obtain ⟨TB, hB⟩ := hwB.exists_shows
  have hfreeA := hA.conflictFree hcA
  have hfreeB := hB.conflictFree hcB
  have hapart := hB.pairwise_apart hdB
  have hempty : Draft.empty.name = "" := rfl
  obtain ⟨P, hP⟩ := exists_first_copy ⟨labels, .both⟩ hA.sound hfreeA hA.nodup
    (hA.pairwise_apart hdA)
  have hv : P.Valid := hP.runs.valid Draft.valid_empty
  obtain ⟨Q, hr, hvQ, hen⟩ := exists_runs (o := ⟨labels, .both⟩) (by simp) hfreeB hv
  obtain ⟨Q', hr', -, -⟩ := exists_runs (o := ⟨labels, .both⟩) (by simp) hfreeB hvQ
  rw [name_eq hen] at hr'
  rw [name_eq hP.entered, hempty] at hr hr'
  have hreadings : readings [A, B] = .ok [TA, TB] :=
    readings_cons hA.outline (readings_cons hB.outline rfl)
  have hreadings' : readings [A, B, B] = .ok [TA, TB, TB] :=
    readings_append hreadings (readings_cons hB.outline rfl)
  have hfirst := hP.runs
  rw [List.flatMap_singleton, hempty] at hfirst
  have hrun : Runs ⟨labels, .both⟩ .empty ([TA, TB].flatMap (Outline.script "")) Q := by
    simpa using hfirst.append hr
  have hrun' : Runs ⟨labels, .both⟩ .empty ([TA, TB, TB].flatMap (Outline.script "")) Q' := by
    simpa using hfirst.append (hr.append hr')
  obtain ⟨out₀, O, h⟩ := hrun.exists_outcome hreadings (by simp [hfreeA, hfreeB])
  obtain ⟨out', O', h'⟩ := hrun'.exists_outcome hreadings' (by simp [hfreeA, hfreeB])
  cases h.merged.symm.trans hout
  have hQ : Q.conflicts = P.conflicts := by
    rw [← h.conflicts, hsilent, hP.conflicts]
    rfl
  have hQ' : out'.conflicts = [] → Q'.conflicts = Q.conflicts := fun hnil => by
    rw [← h'.conflicts, hnil, ← h.conflicts, hsilent]
  have hagain (hl : Lossless (TA.census "") (TB.census "")) : out' = out := by
    have hsettled := hr.settles_of_lossless hB.sound hfreeB hapart hv (distinct_copyOf hA hdA)
      (hP.knows hfreeA) hQ (fun b hb l hl => hB.keys_ne_nil hi hb hl) hl
    have hname : Q.name = "" := (name_eq hen).trans ((name_eq hP.entered).trans hempty)
    rw [← hname] at hsettled
    have hnone := Runs.again_settled hvQ hrun.unique hsettled
    rw [hname] at hnone
    have heq := hrun.mergeAll_append hreadings hB.outline hnone
    rw [hout] at heq
    exact Except.ok.inj (h'.merged.symm.trans heq)
  have hlossless (hnil : out'.conflicts = []) : Lossless (TA.census "") (TB.census "") := by
    intro b hb p hp hnone
    by_contra hrep
    exact hr.records_of_loss hB.sound hfreeB hapart hv (distinct_copyOf hA hdA) (hP.knows hfreeA) hQ
      rfl hr' hb hp hnone hrep (hQ' hnil)
  refine ⟨TA, TB, out', hA.outline, hB.outline, h'.merged, ⟨hlossless, fun hl => ?_⟩,
    fun hnil => ?_⟩
  · rw [hagain hl, hsilent]
  · rw [hagain (hlossless hnil)]

def methodWith (signatures : List Signature) : Forest :=
  .ofItems [.scope (.moduleNamed "A") {} [.leaf (.method { name := "z", signatures }) {}]]

theorem remerging_silent_iff_sample : ∃ out TA TB out',
    mergeAll {} [.sampleModule, methodWith [{}]] = .ok out ∧ out.conflicts = [] ∧
      Forest.sampleModule.outline Forest.root = .ok TA ∧
      (methodWith [{}]).outline Forest.root = .ok TB ∧
      mergeAll {} [.sampleModule, methodWith [{}], methodWith [{}]] = .ok out' ∧
      (out'.conflicts = [] ↔ Lossless (TA.census "") (TB.census "")) ∧
      (out'.conflicts = [] → out'.forest = out.forest) := by
  obtain ⟨out, hout, hsilent⟩ : ∃ out, mergeAll {} [.sampleModule, methodWith [{}]] = .ok out ∧
      out.conflicts = [] := ⟨_, rfl, rfl⟩
  obtain ⟨TA, TB, out', h⟩ := remerging_silent_iff ⟨"left", "right"⟩ .sampleModule (methodWith [{}])
    (by decide) (by decide) (by decide) (by decide) (by decide) (by decide) (by decide) out hout
    hsilent
  exact ⟨out, TA, TB, out', hout, hsilent, h⟩

/-- The signature that stands twice is taken over once, and then it is not what it was. -/
theorem remerging_can_conflict :
    ((methodWith []).WellFormed ∧ (methodWith []).ConflictFree ∧ (methodWith []).DuplicateFree ∧
      (methodWith []).Identified) ∧
    ((methodWith [{}, {}]).WellFormed ∧ (methodWith [{}, {}]).ConflictFree ∧
      (methodWith [{}, {}]).DuplicateFree ∧ (methodWith [{}, {}]).Identified) ∧
    (mergeAll {} [methodWith [], methodWith [{}, {}]]).map (·.conflicts) = .ok [] ∧
    (mergeAll {} [methodWith [], methodWith [{}, {}], methodWith [{}, {}]]).map (·.conflicts) =
      .ok [⟨"::A#z", 2, 3, ⟨"left", "right"⟩⟩] := by
  refine ⟨⟨?_, ?_, ?_, ?_⟩, ⟨?_, ?_, ?_, ?_⟩, rfl, rfl⟩ <;> decide

end Merge

end Reconcile
