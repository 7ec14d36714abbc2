import Reconcile.Proofs.Declaration.Signatures
import Reconcile.Proofs.Merge.Accord
import Reconcile.Proofs.Merge.Registry
import Reconcile.Proofs.Merge.Repetition
import Reconcile.Proofs.Merge.Retention

namespace Reconcile

open Outline (plug)

/-- An entry after a step, in which it may have absorbed a declaration that it agreed with. -/
def Entry.Absorbs (e e' : Entry) : Prop :=
  e.Grows e' ∧ (e'.content = e.content ∨
    ∃ c, e.content.compatible c = true ∧ e'.content = e.content.absorb c)

namespace Entry.Absorbs

variable {e e' : Entry} {k l : Leaf}

theorem compatible (h : e.Absorbs e') (hc : e.content = .leaf k) (hl : k.compatible l = true)
    (hw : l.Within k) : ∃ k', e'.content = .leaf k' ∧ k'.compatible l = true ∧ l.Within k' := by
  rcases h.2 with hsame | ⟨c, hcomp, habsorb⟩
  · exact ⟨k, hsame.trans hc, hl, hw⟩
  · rw [hc] at hcomp habsorb
    cases c with
    | leaf m =>
        exact ⟨k.absorb m, habsorb, Leaf.compatible_absorb_of_within hl hw.signatures_subset hcomp,
          hw.trans (k.within_absorb m)⟩
    | tree | scope | visibilityGroup | group => cases hcomp

theorem incompatible (h : e.Absorbs e') (hl : e.content.compatible (.leaf l) = false) :
    e'.content.compatible (.leaf l) = false := by
  rcases h.2 with hsame | ⟨c, hcomp, habsorb⟩
  · rw [hsame, hl]
  · rw [habsorb]
    cases hc : e.content with
    | leaf k =>
        rw [hc] at hl hcomp
        cases c with
        | leaf m => exact Leaf.incompatible_absorb hl hcomp
        | tree | scope | visibilityGroup | group => cases hcomp
    | tree | scope | visibilityGroup | group => rfl

end Entry.Absorbs

namespace Merge

namespace Draft

variable {P : Draft} {name key : String} {l : Leaf} {h : Handle} {keys ks : List String}

/-- A leaf in a scope of this name would be compared with `e`. -/
def Faces (P : Draft) (name : String) (l : Leaf) (e : Entry) : Prop :=
  e ∈ P.census ∧ ∃ key, P.previous? (l.keys name) = some (key, e.handle)

/-- There is nothing left for an event to do in a scope of this name. -/
inductive Settled (o : Options) (P : Draft) (name : String) : Event → Prop
  | known (s : Scope) (n : Notes) (hs : P.Remarks (s.qualify name) s n.comments) :
      Settled o P name (.enter s n)
  | overruled (s : Scope) (n : Notes) (e : Entry) (t : Scope) (he : e ∈ P.census)
      (hc : e.content = .scope t) (hq : t.qualify e.outer = s.qualify name) (hne : t ≠ s)
      (hk : o.keep = .left) : Settled o P name (.enter s n)
  | left : Settled o P name .leave
  | united (l : Leaf) (n : Notes) (e : Entry) (k : Leaf) (hf : P.Faces name l e)
      (hc : e.content = .leaf k) (hl : k.compatible l = true) (hw : l.Within k)
      (hn : n.comments ⊆ e.notes.comments) : Settled o P name (.declare l n)
  | outvoted (l : Leaf) (n : Notes) (e : Entry) (hf : P.Faces name l e)
      (hl : e.content.compatible (.leaf l) = false) (hk : o.keep = .left) :
      Settled o P name (.declare l n)
  | remarked (comments : List String) (hc : P.KeepsComments name comments) :
      Settled o P name (.remark comments)

/-- A later event brings nothing under the keys of a leaf. If the left version is kept it may, but
then what agrees with the leaf has all of these keys. -/
def Spares (o : Options) (name : String) (l : Leaf) (y : String × Event) : Prop :=
  ∀ c m, y.2.declaration? = some (c, m) → (c.keys y.1).Disjoint (l.keys name) ∨
    o.keep = .left ∧ (c.compatible (.leaf l) = true → c.keys y.1 = l.keys name)

theorem last?_insertAll (i : Index) (keys : List String) (h : Handle) (key : String) :
    (i.insertAll keys h).last? key = if key ∈ keys then some h else i.last? key := by
  induction keys generalizing i with
  | nil => simp [Index.insertAll]
  | cons k keys ih =>
      have hinsert : (i.insert k h).last? key = if key = k then some h else i.last? key := by
        by_cases hk : key = k
        · simp [Index.insert, Index.last?, Index.recent, hk]
        · simp [Index.insert, Index.last?, Index.recent, hk, Ne.symm hk]
      rw [Index.insertAll, List.foldl_cons, ← Index.insertAll, ih, hinsert]
      by_cases hm : key ∈ keys <;> simp [hm]

theorem previous?_insertAll {Q : Draft} (hi : Q.index = P.index.insertAll keys h)
    (ks : List String) : Q.previous? ks = P.previous? ks ∨
      ∃ key ∈ ks, key ∈ keys ∧ Q.previous? ks = some (key, h) := by
  induction ks with
  | nil => exact Or.inl rfl
  | cons key ks ih =>
      rw [previous?, previous?] at ih
      rw [previous?, previous?, List.findSome?_cons, List.findSome?_cons, hi, last?_insertAll]
      by_cases hk : key ∈ keys
      · rw [if_pos hk]
        exact Or.inr ⟨key, List.mem_cons_self, hk, rfl⟩
      · rw [if_neg hk]
        cases P.index.last? key with
        | some x => exact Or.inl rfl
        | none =>
            rw [hi] at ih
            rcases ih with ih | ⟨key', hm, hk', ih⟩
            · exact Or.inl ih
            · exact Or.inr ⟨key', List.mem_cons_of_mem _ hm, hk', ih⟩

theorem Settled.entered {o : Options} {e : Event} (h : P.Settled o name e)
    (entered : List (Handle × String)) : { P with entered := entered }.Settled o name e := by
  cases h with
  | known s n hs => exact .known s n hs
  | overruled s n e t he hc hq hne hk => exact .overruled s n e t he hc hq hne hk
  | left => exact .left
  | united l n e k hf hc hl hw hn => exact .united l n e k hf hc hl hw hn
  | outvoted l n e hf hl hk => exact .outvoted l n e hf hl hk
  | remarked comments hc => exact .remarked comments hc

end Draft

open Draft (Faces Settled Spares)

variable {o : Options} {P Q : Draft} {e e' : Event} {es : List (String × Event)} {name : String}
  {l : Leaf} {s : Scope} {n : Notes} {d : Entry}

namespace Step

theorem absorbs (hv : P.Valid) (hs : Step o P e Q) (hd : d ∈ P.census) :
    ∃ d' ∈ Q.census, d.Absorbs d' := by
  obtain ⟨d', hd', hg, hc | ⟨c, n, key, -, -, hcomp, hc⟩⟩ := hs.content_cases hv hd
  · exact ⟨d', hd', hg, Or.inl hc⟩
  · exact ⟨d', hd', hg, Or.inr ⟨c, hcomp, hc⟩⟩

theorem index_cases (hs : Step o P e Q) : Q.index = P.index ∨
    ∃ c n, e.declaration? = some (c, n) ∧ P.meets? c = none ∧
      ⟨P.next, P.name, c, n⟩ ∈ Q.census ∧ Q.index = P.index.insertAll (c.keys P.name) P.next := by
  cases hs with
  | newScope s n path c m cs hu hp hc hn =>
      exact Or.inr ⟨_, _, rfl, by simp [Draft.meets?, hu],
        (Draft.census_added hp rfl hn).mem_iff.mpr List.mem_cons_self, rfl⟩
  | newLeaf l n path c m cs hu hp hc hn =>
      exact Or.inr ⟨_, _, rfl, hu,
        (Draft.census_added hp rfl hn).mem_iff.mpr List.mem_cons_self, rfl⟩
  | knownScope | keptHeader | contestedHeader | repeatedHeader | left | unitedLeaf | keptLeaf
  | joinedLeaf | opposedLeaf | opposedHeaders | remarked => exact Or.inl rfl

theorem faces (hv : P.Valid) (hs : Step o P e Q) (hf : P.Faces name l d)
    (hsp : Spares o name l (P.name, e)) : ∃ d', Q.Faces name l d' ∧
      (d.Absorbs d' ∨ o.keep = .left ∧ d'.content.compatible (.leaf l) = false) := by
  obtain ⟨hd, key, hu⟩ := hf
  have kept (hprevious : Q.previous? (l.keys name) = P.previous? (l.keys name)) :
      ∃ d', Q.Faces name l d' ∧
        (d.Absorbs d' ∨ o.keep = .left ∧ d'.content.compatible (.leaf l) = false) := by
    obtain ⟨d', hd', ha⟩ := hs.absorbs hv hd
    refine ⟨d', ⟨hd', key, ?_⟩, Or.inl ha⟩
    rw [hprevious, hu, ha.1.handle]
  rcases hs.index_cases with hi | ⟨c, m, hdecl, hm, hnew, hi⟩
  · exact kept (by rw [Draft.previous?, hi, Draft.previous?])
  · rcases Draft.previous?_insertAll hi (l.keys name) with hsame | ⟨key', hk, hkc, hnext⟩
    · exact kept hsame
    · obtain ⟨hleft, hkeys⟩ := (hsp c m hdecl).resolve_left fun hdis => hdis hkc hk
      refine ⟨_, ⟨hnew, key', hnext⟩, Or.inr ⟨hleft, ?_⟩⟩
      rw [Bool.eq_false_iff]
      intro hcomp
      -- The new declaration would have been found under a key of `l`.
      cases c with
      | leaf k =>
          have hnone : P.previous? (l.keys name) = none := by
            rw [← hkeys hcomp]
            exact hm
          cases hu.symm.trans hnone
      | tree | scope | visibilityGroup | group => cases hcomp

theorem keepsSettled (hv : P.Valid) (hs : Step o P e Q) (h : P.Settled o name e')
    (hsp : ∀ l n, e' = .declare l n → Spares o name l (P.name, e)) : Q.Settled o name e' := by
  cases h with
  | known s n hn => exact .known s n (hs.lasts.remarks hn)
  | overruled s n d t hd hc hq hne hk =>
      obtain ⟨d', hd', hg⟩ := hs.lasts.census d hd
      exact .overruled s n d' t hd' (hg.scope_eq hc) (by rw [hg.outer, hq]) hne hk
  | left => exact .left
  | united l n d k hf hc hl hw hn =>
      obtain ⟨d', hf', ha | ⟨hk, hl'⟩⟩ := hs.faces hv hf (hsp l n rfl)
      · obtain ⟨k', hc', hl', hw'⟩ := ha.compatible hc hl hw
        exact .united l n d' k' hf' hc' hl' hw' (List.Subset.trans hn ha.1.comments)
      · exact .outvoted l n d' hf' hl' hk
  | outvoted l n d hf hl hk =>
      obtain ⟨d', hf', ha | ⟨-, hl'⟩⟩ := hs.faces hv hf (hsp l n rfl)
      · exact .outvoted l n d' hf' (ha.incompatible hl) hk
      · exact .outvoted l n d' hf' hl' hk
  | remarked comments hc => exact .remarked comments (hs.lasts.keepsComments hc)

theorem settles (hv : P.Valid) (hs : Step o P e Q) (hc : Q.conflicts = P.conflicts)
    (hkeys : ∀ l n, e = .declare l n → l.keys P.name ≠ [])
    (hagree : ∀ l n d k, e = .declare l n → P.Faces P.name l d → d.content = .leaf k →
      o.keep = .left ∨ (k.signatures = [] → l.signatures.Nodup)) : Q.Settled o P.name e := by
  cases hs with
  | newScope s n path c m cs hu hp hcont hn =>
      exact .known s n ⟨_, (Draft.census_added hp rfl hn).mem_iff.mpr List.mem_cons_self, rfl, rfl,
        List.Subset.refl _⟩
  | knownScope s n path h m cs hu hp =>
      exact .known s n ⟨_, Outline.mem_census_plug "" path rfl, rfl, hv.qualify_eq hu hp,
        subset_union_right _ _⟩
  | keptHeader s n path h t m cs hu hp hne hk =>
      have hmem := Draft.mem_census_of_plug path hp rfl
      exact .overruled s n _ t hmem rfl (hv.qualify_eq hu hp) hne hk
  | left => exact .left
  | newLeaf l n path c m cs hu hp hcont hn =>
      obtain ⟨key, rest, hkey⟩ := List.exists_cons_of_ne_nil (hkeys l n rfl)
      have hadd := Draft.census_added (d := .leaf l) (m := n) hp rfl hn
      refine .united l n _ l ⟨hadd.mem_iff.mpr List.mem_cons_self, key, ?_⟩ rfl
        (Leaf.compatible_self (hkeys l n rfl)) (.same l) (List.Subset.refl _)
      rw [Draft.previous?, hkey, List.findSome?_cons, Draft.last?_insertAll,
        if_pos List.mem_cons_self]
      rfl
  | unitedLeaf l n path key h l' m cs hu hp hl =>
      have hmem := Draft.mem_census_of_plug path hp rfl
      have hgrown (n' : Notes) : Faces
          { P with outline := plug path (.node h (.leaf (l'.absorb l)) n' cs) } P.name l
          ⟨h, pathName "" path, .leaf (l'.absorb l), n'⟩ :=
        ⟨Outline.mem_census_plug "" path rfl, key, hu⟩
      cases hagain : (l'.absorb l).compatible l with
      | true =>
          exact .united l n _ _ (hgrown _) rfl hagain (.of_compatible hl) (subset_union_right _ _)
      | false =>
          refine .outvoted l n _ (hgrown _) hagain ?_
          refine (hagree l n _ l' rfl ⟨hmem, key, hu⟩ rfl).resolve_right fun hn => ?_
          rw [(Leaf.absorb_compatible_iff hl).mpr hn] at hagain
          cases hagain
  | keptLeaf l n path key h c m cs hu hp hl hk =>
      exact .outvoted l n _
        ⟨Draft.mem_census_of_plug path hp (hv.mem_keys path hu hp).1, key, hu⟩ hl hk
  | contestedHeader | repeatedHeader | joinedLeaf | opposedLeaf | opposedHeaders =>
      exact absurd hc (by simp [Draft.record])
  | remarked comments path c m cs hp hn =>
      have hs := Step.remarked (o := o) comments path c m cs hp hn
      exact .remarked comments (hs.keepsComments hv)

end Step

theorem Runs.exists_at {before after : List (String × Event)}
    (hr : Runs o P (before ++ (name, e) :: after) Q) : ∃ R R', R.name = name ∧ Runs o P before R ∧
      Step o R e R' ∧ Runs o R' after Q ∧
      (Q.conflicts = P.conflicts → R'.conflicts = R.conflicts) := by
  obtain ⟨R, hbefore, hrest⟩ := hr.split
  generalize hfirst : (name, e) = y at hrest
  cases hrest with
  | @cons _ R' _ e' _ hs hafter =>
      obtain ⟨rfl, rfl⟩ := Prod.mk.inj hfirst
      refine ⟨R, R', rfl, hbefore, hs, hafter, fun hc => ?_⟩
      have hsecond := (hbefore.silent_of_append (.cons hs hafter) hc).2
      exact ((single hs).silent_of_append hafter hsecond).1

theorem Runs.keepsSettled (hr : Runs o P es Q) (hv : P.Valid) (h : P.Settled o name e)
    (hsp : ∀ l n, e = .declare l n → ∀ y ∈ es, Spares o name l y) : Q.Settled o name e := by
  induction hr with
  | nil => exact h
  | cons hs hr ih =>
      refine ih (hs.valid hv) (hs.keepsSettled hv h fun l n heq => ?_) fun l n heq y hy => ?_
      · exact hsp l n heq _ List.mem_cons_self
      · exact hsp l n heq y (List.mem_cons_of_mem _ hy)

theorem Draft.Valid.scopeUnder?_eq (hv : P.Valid) (hu : P.Unique) (hd : d ∈ P.census)
    (hc : d.content = .scope s) : P.scopeUnder? (s.qualify d.outer) = some d.handle := by
  have hkey : s.qualify d.outer ∈ d.keys := by simp [Entry.keys, hc, Content.keys]
  have hrecent : d.handle ∈ P.index.recent (s.qualify d.outer) :=
    mem_recent_iff.mpr (hv.mem_newest_iff.mpr ⟨d, hd, rfl, hkey⟩)
  cases hfind : P.scopeUnder? (s.qualify d.outer) with
  | none =>
      refine absurd (isScopeAt_of_mem hd (by rw [hc]; rfl)) ?_
      exact List.find?_eq_none.mp hfind _ hrecent
  | some h =>
      obtain ⟨d', hd', rfl, t, ht, hq⟩ := scope_of_scopeUnder hv.laden hfind
      by_contra hne
      refine hu d hd d' hd' (fun heq => hne (by rw [heq])) (by rw [hc, ht]; rfl) hkey ?_
      simp [Entry.keys, ht, Content.keys, hq]

section

variable (hv : P.Valid)
include hv

theorem Step.again_enter (hu : P.Unique) (h : P.Settled o P.name (.enter s n)) :
    ∃ k, Step o P (.enter s n) { P with entered := (k, s.qualify P.name) :: P.entered } := by
  cases h with
  | known _ _ hs =>
      obtain ⟨d, hd, hc, hq, hn⟩ := hs
      obtain ⟨path, cs, hp, -, -⟩ := Outline.exists_path_of_mem_census hd
      have hfind := hv.scopeUnder?_eq hu hd hc
      rw [hq] at hfind
      rw [hc] at hp
      have hs := Step.knownScope (o := o) s n path d.handle d.notes cs hfind hp
      rw [Notes.addComments_eq_self hn, ← hp] at hs
      exact ⟨d.handle, hs⟩
  | overruled _ _ d t hd hc hq hne hk =>
      obtain ⟨path, cs, hp, -, -⟩ := Outline.exists_path_of_mem_census hd
      have hfind := hv.scopeUnder?_eq hu hd hc
      rw [hq] at hfind
      rw [hc] at hp
      exact ⟨d.handle, .keptHeader s n path d.handle t d.notes cs hfind hp hne hk⟩

omit hv in
theorem Step.again_declare (h : P.Settled o P.name (.declare l n)) : Step o P (.declare l n) P := by
  cases h with
  | united _ _ d k hf hc hl hw hn =>
      obtain ⟨hd, key, hu⟩ := hf
      obtain ⟨path, cs, hp, -, -⟩ := Outline.exists_path_of_mem_census hd
      rw [hc] at hp
      have hs := Step.unitedLeaf (o := o) l n path key d.handle k d.notes cs hu hp hl
      rwa [hw.absorb_eq, Notes.addComments_eq_self hn, ← hp] at hs
  | outvoted _ _ d hf hl hk =>
      obtain ⟨hd, key, hu⟩ := hf
      obtain ⟨path, cs, hp, -, -⟩ := Outline.exists_path_of_mem_census hd
      exact .keptLeaf l n path key d.handle d.content d.notes cs hu hp hl hk

theorem Draft.KeepsComments.current (hu : P.Unique) {comments : List String} {path : List Frame}
    {c : Content} {m : Notes} {cs : List Outline} (h : P.KeepsComments P.name comments)
    (hp : P.outline = plug path (.node P.current c m cs))
    (hn : c.qualify (pathName "" path) = P.name) : comments ⊆ m.comments := by
  rw [Draft.KeepsComments] at h
  rcases hv.standing.current_cases hp with ⟨s, rfl⟩ | ⟨rfl, rfl, hname⟩
  · have hq : s.qualify (pathName "" path) = P.name := hn
    rw [if_neg (hq ▸ s.qualify_ne_empty _)] at h
    obtain ⟨t, d, hd, hc, hq', hsub⟩ := h
    have hmem := Draft.mem_census_of_plug path hp rfl
    have hfind := hv.scopeUnder?_eq hu hd hc
    have hcurrent := hv.scopeUnder?_eq hu hmem rfl
    rw [hq', ← hq, hcurrent, Option.some.injEq] at hfind
    cases Outline.census_unique hv.nodup_outline hmem hd hfind
    exact hsub
  · rw [if_pos hname, hp] at h
    exact h

theorem Step.again_remark (hu : P.Unique) {comments : List String}
    (h : P.Settled o P.name (.remark comments)) : Step o P (.remark comments) P := by
  cases h with
  | remarked _ hc =>
      obtain ⟨path, c, m, cs, hp, -, hn, -⟩ := hv.standing.exists_current
      have hs := Step.remarked (o := o) comments path c m cs hp hn
      rwa [Notes.addComments_eq_self (hc.current hv hu hp hn), ← hp] at hs

end

/-- A tree whose events are settled is read without any effect. -/
theorem Runs.again_settled {x : Outline} (hv : P.Valid) (hu : P.Unique)
    (hx : ∀ y ∈ x.script P.name, P.Settled o y.1 y.2) : Runs o P (x.script P.name) P := by
  induction x generalizing P with
  | conflict h form labels m l r =>
      have hcarry := hx _ (List.mem_singleton_self _)
      cases hcarry
  | node h c m cs ih =>
      cases c with
      | scope s =>
          simp only [Outline.script, Outline.scriptOfAll_eq, List.cons_append, List.forall_mem_cons,
            List.forall_mem_append] at hx
          obtain ⟨k, hs⟩ := Step.again_enter hv hu hx.1
          refine .scope h hs (.again_all fun x hm => ?_) rfl
          refine ih x hm (hs.valid hv) hu fun y hy => (hx.2.1 y ?_).entered _
          exact List.mem_flatMap.mpr ⟨x, hm, hy⟩
      | leaf l => exact .single (.again_declare (hx _ (List.mem_singleton_self _)))
      | tree | visibilityGroup | group =>
          simp only [Outline.script, Outline.scriptOfAll_eq, List.forall_mem_cons] at hx ⊢
          refine .cons (.again_remark hv hu hx.1) (.again_all fun x hm => ?_)
          exact ih x hm hv hu fun y hy => hx.2 y (List.mem_flatMap.mpr ⟨x, hm, hy⟩)

end Merge

end Reconcile
